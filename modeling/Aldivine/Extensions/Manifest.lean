import Aldivine.Edge.Forwarding
import Aldivine.Foundation.Fallible
import Aldivine.Packages.Model
import Mathlib.Data.List.Sort

namespace Aldivine.Extensions.Manifest

open Edge.Forwarding (lowerHex)
open Foundation.Fallible Foundation.Text
open Packages.Model (Primitives hexDecode)

def hostAbi : BitVec 32 := 1

def knownCapabilities : List String :=
  ["game.natives.call", "game.entities.read", "game.entities.write", "net.events.send",
    "net.events.recv", "db.query", "fs.read", "fs.write", "http.outbound", "timers", "logging"]

inductive ExtError
  | malformed (text : String)
  | unknownCapability (id capability : String)
  | abiMismatch (id : String) (wanted : BitVec 32)
  | runtimeMismatch (id required : String)
  | unsafeLibraryPath (id path : String)
  | unsigned (id : String)
  | badSignature (id : String)
  | untrustedKey (id : String)
  | hashMismatch (id : String)
  | capabilityDenied (id capability : String)
deriving DecidableEq

structure ExtSignature where
  algorithm : String
  publicKeyHex : String
  signatureHex : String
deriving DecidableEq

def ExtSignature.algo : String := "ed25519"

def ExtSignature.isSigned (s : ExtSignature) : Bool := s.signatureHex ≠ ""

structure ExtensionManifest where
  extensionId : String
  version : String
  abiVersion : BitVec 32
  publisherId : String
  library : String
  requiresRuntime : Option String
  capabilities : List String
  signature : ExtSignature
deriving DecidableEq

structure ExtPolicy where
  allowUnsigned : Bool
  trustedKeys : List String
  allowedCapabilities : List String

structure Authorized where
  manifest : ExtensionManifest
  libSha256Hex : String
  capabilities : List String
deriving DecidableEq

/-- The version crate: what is a version, and whether a range, if it is one, takes in the version of
the host. -/
structure Semver where
  isVersion : String → Bool
  matchesHost : String → Option Bool

/-- `to_lowercase`, of which only the letters of hex digits matter here. -/
def toLowercase (s : String) : String := String.ofList (s.toList.map Char.toLower)

/-- `Path::components`, counted: a leading slash, a leading dot, and what is neither empty nor a
dot. -/
def componentCount (path : String) : ℕ :=
  let pieces := path.toList.splitOn '/'
  (if path.toList.head? = some '/' ∨ pieces.head? = some ['.'] then 1 else 0) +
    pieces.countP (fun p ↦ p ≠ [] ∧ p ≠ ['.'])

namespace ExtensionManifest

def safeLibrary (library : String) : Bool :=
  let chars := library.toList
  !(chars.isEmpty || chars.contains '/' || chars.contains '\\' || chars.contains ':' ||
    (chars.splitOn '.').head? == some [] || (chars.splitOn '/').contains ['.', '.'] ||
    (chars.splitOn '\\').contains ['.', '.'] || componentCount library ≠ 1)

def validateShape (semver : Semver) (m : ExtensionManifest) : Except ExtError Unit := do
  refuse (isBlank m.extensionId = true) (.malformed "extension_id is empty")
  refuse (128 < (utf8 m.extensionId).length) (.malformed "extension_id too long")
  refuse (semver.isVersion m.version = false)
    (.malformed ("version '" ++ m.version ++ "' is not semver"))
  refuse (isBlank m.publisherId = true) (.malformed "publisher_id is empty")
  refuse (safeLibrary m.library = false) (.unsafeLibraryPath m.extensionId m.library)

end ExtensionManifest

/-- The strings that a signature covers, each written with a NUL after it. -/
def covered (m : ExtensionManifest) (libSha256Hex : String) : List String :=
  [m.extensionId, m.version, toString m.abiVersion.toNat, m.publisherId,
      m.requiresRuntime.getD ""] ++
    m.capabilities.insertionSort (· ≤ ·) ++ [libSha256Hex]

def canonicalExtensionBytes (m : ExtensionManifest) (libSha256Hex : String) : List UInt8 :=
  (covered m libSha256Hex).flatMap (fun s ↦ utf8 s ++ [0])

def sha256Hex (crypto : Primitives) (data : List UInt8) : String := lowerHex (crypto.sha256 data)

def verifySignature (crypto : Primitives) (m : ExtensionManifest) (libSha256Hex : String)
    (policy : ExtPolicy) : Except ExtError Unit :=
  let sig := m.signature
  if !sig.isSigned then
    if policy.allowUnsigned then .ok () else .error (.unsigned m.extensionId)
  else do
    refuse (sig.algorithm ≠ ExtSignature.algo)
      (.malformed ("unsupported signature algorithm '" ++ sig.algorithm ++ "'"))
    let keyHex := toLowercase sig.publicKeyHex
    refuse (¬policy.trustedKeys.any (fun k ↦ toLowercase k == keyHex)) (.untrustedKey m.extensionId)
    let pkBytes ← okOr ((hexDecode sig.publicKeyHex).filter (fun v ↦ v.length = 32))
      (.malformed "public key is not 32-byte hex")
    let sigBytes ← okOr ((hexDecode sig.signatureHex).filter (fun v ↦ v.length = 64))
      (.malformed "signature is not 64-byte hex")
    refuse (crypto.validKey pkBytes = false) (.malformed "public key rejected")
    refuse (crypto.verify pkBytes (canonicalExtensionBytes m libSha256Hex) sigBytes = false)
      (.badSignature m.extensionId)

def negotiateRuntime (semver : Semver) (m : ExtensionManifest) : Except ExtError Unit :=
  match m.requiresRuntime with
  | none => .ok ()
  | some reqStr => do
    let matched ← okOr (semver.matchesHost reqStr)
      (.malformed ("requires_runtime '" ++ reqStr ++ "' is not a valid range"))
    refuse (matched = false) (.runtimeMismatch m.extensionId reqStr)

def grantCapability (m : ExtensionManifest) (policy : ExtPolicy) (cap : String) :
    Except ExtError Unit := do
  refuse (cap ∉ knownCapabilities) (.unknownCapability m.extensionId cap)
  refuse (cap ∉ policy.allowedCapabilities) (.capabilityDenied m.extensionId cap)

def authorize (crypto : Primitives) (semver : Semver) (m : ExtensionManifest)
    (libBytes : List UInt8) (expectedLibSha256Hex : String) (policy : ExtPolicy) :
    Except ExtError Authorized := do
  m.validateShape semver
  refuse (m.abiVersion ≠ hostAbi) (.abiMismatch m.extensionId m.abiVersion)
  negotiateRuntime semver m
  let actual := sha256Hex crypto libBytes
  refuse (actual ≠ toLowercase expectedLibSha256Hex) (.hashMismatch m.extensionId)
  verifySignature crypto m actual policy
  m.capabilities.forM (grantCapability m policy)
  return ⟨m, actual, (m.capabilities.insertionSort (· ≤ ·)).dedup⟩

section Checks

variable {crypto : Primitives} {semver : Semver} {m : ExtensionManifest} {lib : List UInt8}
  {expected : String} {policy : ExtPolicy} {authorized : Authorized}

structure Vouched (crypto : Primitives) (semver : Semver) (m : ExtensionManifest)
    (lib : List UInt8) : Prop where
  version : semver.isVersion m.version = true
  abi : m.abiVersion = hostAbi
  runtime : ∀ req ∈ m.requiresRuntime, (semver.matchesHost req).isSome
  capabilities : ∀ cap ∈ m.capabilities, cap ∈ knownCapabilities
  signature : ∃ key ∈ hexDecode m.signature.publicKeyHex, ∃ sig ∈ hexDecode m.signature.signatureHex,
    crypto.verify key (canonicalExtensionBytes m (sha256Hex crypto lib)) sig = true

theorem negotiateRuntime_ok (h : negotiateRuntime semver m = .ok ()) :
    ∀ req ∈ m.requiresRuntime, (semver.matchesHost req).isSome := by
  intro req hreq
  unfold negotiateRuntime at h
  rw [hreq] at h
  obtain ⟨matched, hmatched, -⟩ := bind_eq_ok.mp h
  exact Option.isSome_of_mem (okOr_eq_ok.mp hmatched)

theorem verifySignature_ok {hash : String} (hsigned : m.signature.isSigned = true)
    (h : verifySignature crypto m hash policy = .ok ()) :
    ∃ key ∈ hexDecode m.signature.publicKeyHex, ∃ sig ∈ hexDecode m.signature.signatureHex,
      crypto.verify key (canonicalExtensionBytes m hash) sig = true := by
  unfold verifySignature at h
  simp only [hsigned, Bool.not_true, Bool.false_eq_true, if_false] at h
  obtain ⟨-, h⟩ := check_bind_eq_ok.mp h
  obtain ⟨-, h⟩ := check_bind_eq_ok.mp h
  obtain ⟨key, hkey, h⟩ := bind_eq_ok.mp h
  obtain ⟨sig, hsig, h⟩ := bind_eq_ok.mp h
  obtain ⟨-, h⟩ := check_bind_eq_ok.mp h
  have hverified : ¬crypto.verify key (canonicalExtensionBytes m hash) sig = false :=
    refuse_eq_ok.mp h
  exact ⟨key, (Option.filter_eq_some_iff.mp (okOr_eq_ok.mp hkey)).1, sig,
    (Option.filter_eq_some_iff.mp (okOr_eq_ok.mp hsig)).1, Bool.not_eq_false _ ▸ hverified⟩

theorem vouched_of_authorize (h : authorize crypto semver m lib expected policy = .ok authorized)
    (hsigned : m.signature.isSigned = true) : Vouched crypto semver m lib := by
  obtain ⟨hshape, h⟩ := check_bind_eq_ok.mp h
  obtain ⟨habi, h⟩ := check_bind_eq_ok.mp h
  obtain ⟨hruntime, h⟩ := check_bind_eq_ok.mp h
  obtain ⟨-, h⟩ := check_bind_eq_ok.mp h
  obtain ⟨hsignature, h⟩ := check_bind_eq_ok.mp h
  obtain ⟨hcapabilities, -⟩ := check_bind_eq_ok.mp h
  refine ⟨?_, not_not.mp (refuse_eq_ok.mp habi), negotiateRuntime_ok hruntime, ?_,
    verifySignature_ok hsigned hsignature⟩
  · obtain ⟨-, hshape⟩ := check_bind_eq_ok.mp hshape
    obtain ⟨-, hshape⟩ := check_bind_eq_ok.mp hshape
    obtain ⟨hversion, -⟩ := check_bind_eq_ok.mp hshape
    have hnot : ¬semver.isVersion m.version = false := refuse_eq_ok.mp hversion
    exact Bool.not_eq_false _ ▸ hnot
  · intro cap hcap
    rw [List.forM_eq_forM, forM_eq_ok] at hcapabilities
    obtain ⟨hknown, -⟩ := check_bind_eq_ok.mp (hcapabilities cap hcap)
    exact not_not.mp (refuse_eq_ok.mp hknown)

end Checks

end Aldivine.Extensions.Manifest
