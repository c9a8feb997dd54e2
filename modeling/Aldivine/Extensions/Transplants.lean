import Aldivine.Extensions.Manifest
import Aldivine.Packages.Canonical

namespace Aldivine.Extensions.Transplants

open Edge.Forwarding (lowerHex lowerHex_injective hexByte)
open Edge.Hashing (sha256Bytes)
open Foundation.Fallible (toOption_eq_some)
open Foundation.Pieces Foundation.Text Foundation.Utf8 Manifest
open Packages.Canonical (nul pieces encode_terminated pieces_ne_nil pieces_eq_singleton
  flatMap_pieces_of_free)
open Packages.Model (Primitives hexDecode)

/-- What the version crate documents: versions and ranges have no NUL in them, and neither the empty
text nor the name of a capability is a range. -/
structure Documented (semver : Semver) : Prop where
  version : ∀ s, semver.isVersion s = true → nul ∉ s.toList
  range : ∀ s, (semver.matchesHost s).isSome → nul ∉ s.toList
  empty : semver.matchesHost "" = none
  capability : ∀ cap ∈ knownCapabilities, semver.matchesHost cap = none

/-- A signature verifies for at most one message under a key. -/
def Binding (crypto : Primitives) : Prop :=
  ∀ key message message' sig, crypto.verify key message sig = true →
    crypto.verify key message' sig = true → message = message'

/-- Two extensions are the same in all that their signatures are to cover. -/
structure Agree (m m' : ExtensionManifest) (lib lib' : List UInt8) : Prop where
  extensionId : m.extensionId = m'.extensionId
  version : m.version = m'.version
  abiVersion : m.abiVersion = m'.abiVersion
  publisherId : m.publisherId = m'.publisherId
  library : m.library = m'.library
  requiresRuntime : m.requiresRuntime = m'.requiresRuntime
  capabilities : ∀ cap, cap ∈ m.capabilities ↔ cap ∈ m'.capabilities
  bytes : lib = lib'

section Pieces

variable {crypto : Primitives} {semver : Semver} {m m' : ExtensionManifest} {lib lib' : List UInt8}
  {s s' : String}

theorem pieces_injective (h : pieces s = pieces s') : s = s' := by
  have hjoin := congrArg [nul].intercalate h
  rw [pieces, pieces, List.intercalate_splitOn, List.intercalate_splitOn] at hjoin
  exact String.toList_inj.mp hjoin

theorem nul_not_mem_lowerHex (bytes : List UInt8) : nul ∉ (lowerHex bytes).toList := by
  have hdigit : ∀ i < 16, Nat.digitChar i ≠ nul := by decide
  rw [lowerHex, String.toList_ofList, List.mem_flatMap]
  intro hmem
  obtain ⟨b, -, hb⟩ := hmem
  have hlt : b.toNat < 256 := b.toNat_lt
  rcases List.mem_cons.mp hb with hhigh | hlow
  · exact hdigit _ (by omega) hhigh.symm
  · exact hdigit _ (by omega) (List.mem_singleton.mp hlow).symm

theorem nul_not_mem_capability {cap : String} (h : cap ∈ knownCapabilities) : nul ∉ cap.toList := by
  revert cap
  decide

theorem pieces_covered (hsemver : Documented semver) (hv : Vouched crypto semver m lib) :
    (covered m (sha256Hex crypto lib)).flatMap pieces =
      pieces m.extensionId ++ m.version.toList :: ['1'] :: (pieces m.publisherId ++
        ((m.requiresRuntime.getD "").toList ::
          (m.capabilities.insertionSort (· ≤ ·)).map String.toList) ++
        [(sha256Hex crypto lib).toList]) := by
  have hruntime : nul ∉ (m.requiresRuntime.getD "").toList := by
    cases hreq : m.requiresRuntime with
    | none => exact List.not_mem_nil
    | some req => exact hsemver.range req (hv.runtime req hreq)
  have hcaps : ∀ cap ∈ m.capabilities.insertionSort (· ≤ ·), nul ∉ cap.toList := by
    intro cap hcap
    rw [List.mem_insertionSort] at hcap
    exact nul_not_mem_capability (hv.capabilities cap hcap)
  have habi : pieces (toString m.abiVersion.toNat) = [['1']] := by
    rw [hv.abi]
    decide
  simp only [covered, List.flatMap_append, List.flatMap_cons, List.flatMap_nil, List.append_nil,
    habi, pieces_eq_singleton (hsemver.version _ hv.version), pieces_eq_singleton hruntime,
    flatMap_pieces_of_free hcaps, pieces_eq_singleton (nul_not_mem_lowerHex _), sha256Hex]
  simp

theorem pieces_of_bytes {hash hash' : String}
    (h : canonicalExtensionBytes m hash = canonicalExtensionBytes m' hash') :
    (covered m hash).flatMap pieces = (covered m' hash').flatMap pieces := by
  rw [canonicalExtensionBytes, canonicalExtensionBytes, ← encode_terminated, ← encode_terminated] at h
  have hsplit := congrArg (List.splitOn nul) (encode_injective h)
  rw [splitOn_terminated, splitOn_terminated, List.flatMap_map, List.flatMap_map] at hsplit
  exact List.append_cancel_right hsplit

/-- A version requirement is not the name of a capability, so a list of names that follows one does
not begin with one. -/
theorem nil_of_requirement {front : List (List Char)} {m m' : ExtensionManifest}
    (hsemver : Documented semver) (hv : Vouched crypto semver m lib)
    (hv' : Vouched crypto semver m' lib')
    (h : (m.requiresRuntime.getD "").toList ::
        (m.capabilities.insertionSort (· ≤ ·)).map String.toList =
      front ++ (m'.requiresRuntime.getD "").toList ::
        (m'.capabilities.insertionSort (· ≤ ·)).map String.toList) : front = [] := by
  cases front with
  | nil => rfl
  | cons first front =>
    rw [List.cons_append] at h
    have hmem : (m'.requiresRuntime.getD "").toList ∈
        (m.capabilities.insertionSort (· ≤ ·)).map String.toList := by
      rw [(List.cons.inj h).2]
      exact List.mem_append_right _ List.mem_cons_self
    obtain ⟨cap, hcap, heq⟩ := List.mem_map.mp hmem
    rw [List.mem_insertionSort] at hcap
    have hknown := hv.capabilities cap hcap
    rw [String.toList_inj] at heq
    cases hreq : m'.requiresRuntime with
    | none =>
      rw [heq, hreq] at hknown
      exact absurd hknown (by decide)
    | some req =>
      rw [hreq, Option.getD_some] at heq
      have hrange := hv'.runtime req hreq
      rw [← heq, hsemver.capability cap hknown] at hrange
      cases hrange

theorem publisher_of_pieces (hsemver : Documented semver) (hv : Vouched crypto semver m lib)
    (hv' : Vouched crypto semver m' lib')
    (h : pieces m.publisherId ++ (m.requiresRuntime.getD "").toList ::
        (m.capabilities.insertionSort (· ≤ ·)).map String.toList =
      pieces m'.publisherId ++ (m'.requiresRuntime.getD "").toList ::
        (m'.capabilities.insertionSort (· ≤ ·)).map String.toList) :
    m.publisherId = m'.publisherId ∧
      (m.requiresRuntime.getD "").toList :: (m.capabilities.insertionSort (· ≤ ·)).map String.toList =
        (m'.requiresRuntime.getD "").toList ::
          (m'.capabilities.insertionSort (· ≤ ·)).map String.toList := by
  have hpieces : pieces m.publisherId = pieces m'.publisherId := by
    rcases List.append_eq_append_iff.mp h with ⟨front, hpublisher, hrest⟩ | ⟨front, hpublisher, hrest⟩
    · rw [nil_of_requirement hsemver hv hv' hrest, List.append_nil] at hpublisher
      exact hpublisher.symm
    · rw [nil_of_requirement hsemver hv' hv hrest, List.append_nil] at hpublisher
      exact hpublisher
  rw [hpieces] at h
  exact ⟨pieces_injective hpieces, List.append_cancel_left h⟩

theorem requirement_injective (hsemver : Documented semver) (hv : Vouched crypto semver m lib)
    (hv' : Vouched crypto semver m' lib')
    (h : m.requiresRuntime.getD "" = m'.requiresRuntime.getD "") :
    m.requiresRuntime = m'.requiresRuntime := by
  have hne : ∀ req, (semver.matchesHost req).isSome → req ≠ "" := by
    intro req hreq heq
    rw [heq, hsemver.empty] at hreq
    cases hreq
  cases hreq : m.requiresRuntime with
  | none =>
    cases hreq' : m'.requiresRuntime with
    | none => rfl
    | some req' =>
      rw [hreq, hreq'] at h
      exact absurd h.symm (hne req' (hv'.runtime req' hreq'))
  | some req =>
    cases hreq' : m'.requiresRuntime with
    | none =>
      rw [hreq, hreq'] at h
      exact absurd h (hne req (hv.runtime req hreq))
    | some req' =>
      rw [hreq, hreq'] at h
      exact congrArg some h

/-- The signed bytes tell everything but the file name, once they tell where the first identifier
ends. -/
theorem agree_of_bytes (hsemver : Documented semver) (hv : Vouched crypto semver m lib)
    (hv' : Vouched crypto semver m' lib')
    (hcollision : crypto.sha256 lib = crypto.sha256 lib' → lib = lib')
    (hbytes : canonicalExtensionBytes m (sha256Hex crypto lib) =
      canonicalExtensionBytes m' (sha256Hex crypto lib'))
    (hlibrary : m.library = m'.library)
    (hcount : m.extensionId.toList.count nul = m'.extensionId.toList.count nul) :
    Agree m m' lib lib' := by
  have hpieces := pieces_of_bytes hbytes
  rw [pieces_covered hsemver hv, pieces_covered hsemver hv'] at hpieces
  have hlength : (pieces m.extensionId).length = (pieces m'.extensionId).length := by
    rw [pieces, pieces, length_splitOn, length_splitOn, hcount]
  obtain ⟨hid, hrest⟩ := List.append_inj hpieces hlength
  rw [List.cons.injEq, List.cons.injEq] at hrest
  obtain ⟨hversion, -, hrest⟩ := hrest
  obtain ⟨hrest, hhash⟩ := List.append_inj' hrest rfl
  obtain ⟨hpublisher, hrest⟩ := publisher_of_pieces hsemver hv hv' hrest
  rw [List.cons.injEq] at hrest
  obtain ⟨hreq, hcaps⟩ := hrest
  have hcaps := List.map_injective_iff.mpr (fun _ _ heq ↦ String.toList_inj.mp heq) hcaps
  have hhash : sha256Hex crypto lib = sha256Hex crypto lib' :=
    String.toList_inj.mp (List.singleton_inj.mp hhash)
  refine ⟨pieces_injective hid, String.toList_inj.mp hversion, hv.abi.trans hv'.abi.symm, hpublisher,
    hlibrary, requirement_injective hsemver hv hv' (String.toList_inj.mp hreq), fun cap ↦ ?_,
    hcollision (lowerHex_injective hhash)⟩
  rw [← List.mem_insertionSort (· ≤ ·), hcaps, List.mem_insertionSort]

theorem same_bytes (hbinding : Binding crypto) (hv : Vouched crypto semver m lib)
    (hv' : Vouched crypto semver m' lib')
    (hkey : hexDecode m.signature.publicKeyHex = hexDecode m'.signature.publicKeyHex)
    (hsig : hexDecode m.signature.signatureHex = hexDecode m'.signature.signatureHex) :
    canonicalExtensionBytes m (sha256Hex crypto lib) =
      canonicalExtensionBytes m' (sha256Hex crypto lib') := by
  obtain ⟨key, hdecoded, sig, hsigDecoded, hverified⟩ := hv.signature
  obtain ⟨key', hdecoded', sig', hsigDecoded', hverified'⟩ := hv'.signature
  rw [hkey] at hdecoded
  rw [hsig] at hsigDecoded
  rw [Option.mem_unique hdecoded hdecoded', Option.mem_unique hsigDecoded hsigDecoded'] at hverified
  exact hbinding _ _ _ _ hverified hverified'

/-- A signature holds on to what it was made for but for the name of the library file, which it does
not cover, and for a NUL in the identifier, which reads as the end of it. -/
theorem transplanted_iff {expected expected' : String} {policy policy' : ExtPolicy}
    {authorized authorized' : Authorized} (hsemver : Documented semver) (hbinding : Binding crypto)
    (hcollision : crypto.sha256 lib = crypto.sha256 lib' → lib = lib')
    (h : authorize crypto semver m lib expected policy = .ok authorized)
    (h' : authorize crypto semver m' lib' expected' policy' = .ok authorized')
    (hsigned : m.signature.isSigned = true) (hsigned' : m'.signature.isSigned = true)
    (hkey : hexDecode m.signature.publicKeyHex = hexDecode m'.signature.publicKeyHex)
    (hsig : hexDecode m.signature.signatureHex = hexDecode m'.signature.signatureHex) :
    Agree m m' lib lib' ↔ m.library = m'.library ∧
      m.extensionId.toList.count nul = m'.extensionId.toList.count nul := by
  have hv := vouched_of_authorize h hsigned
  have hv' := vouched_of_authorize h' hsigned'
  constructor
  · intro hagree
    exact ⟨hagree.library, by rw [hagree.extensionId]⟩
  · intro hsame
    exact agree_of_bytes hsemver hv hv' hcollision (same_bytes hbinding hv hv' hkey hsig) hsame.1
      hsame.2

end Pieces

section Example

def twoVersions : Semver where
  isVersion s := s = "1.0.0" || s = "2.0.0"
  matchesHost s := if s = ">=1.0.0" then some true else none

theorem twoVersions_documented : Documented twoVersions := by
  refine ⟨fun s h ↦ ?_, fun s h ↦ ?_, by decide, by decide⟩
  · rcases Bool.or_eq_true_iff.mp h with hs | hs
    · rw [of_decide_eq_true hs]
      decide
    · rw [of_decide_eq_true hs]
      decide
  · have hs : s = ">=1.0.0" := by
      by_contra hne
      simp only [twoVersions, if_neg hne, Option.isSome_none, Bool.false_eq_true] at h
    rw [hs]
    decide

/-- Of all messages one is signed, under one key and by one signature. -/
def signerOf (message : List UInt8) : Primitives where
  validKey _ := true
  verify key message' sig :=
    key = List.replicate 32 0 && message' = message && sig = List.replicate 64 0
  sha256 := sha256Bytes

theorem signerOf_binding (message : List UInt8) : Binding (signerOf message) := by
  intro key first second sig hfirst hsecond
  simp only [signerOf, Bool.and_eq_true, decide_eq_true_eq] at hfirst hsecond
  exact hfirst.1.2.trans hsecond.1.2.symm

def anyone : ExtPolicy :=
  ⟨false, [String.ofList (List.replicate 64 '0')], ["db.query", "timers"]⟩

def ping : ExtensionManifest where
  extensionId := "ping"
  version := "1.0.0"
  abiVersion := 1
  publisherId := "pub"
  library := "ping.dll"
  requiresRuntime := some ">=1.0.0"
  capabilities := ["timers", "db.query"]
  signature := ⟨"ed25519", String.ofList (List.replicate 64 '0'),
    String.ofList (List.replicate 128 '0')⟩

def pingHash : String := "4bf5122f344554c53bde2ebb8cd2b7e3d1600ad631c385a5d7cce23c7785459a"

def signer : Primitives := signerOf (canonicalExtensionBytes ping pingHash)

def reordered : ExtensionManifest := { ping with capabilities := ["db.query", "timers"] }

theorem sha256Hex_ping : sha256Hex signer [1] = pingHash := by decide +kernel

theorem reordered_agree : Agree ping reordered [1] [1] := by
  have hfirst : (authorize signer twoVersions ping [1] pingHash anyone).toOption =
      some ⟨ping, pingHash, ["db.query", "timers"]⟩ := by
    rw [authorize, sha256Hex_ping]
    decide +kernel
  have hsecond : (authorize signer twoVersions reordered [1] pingHash anyone).toOption =
      some ⟨reordered, pingHash, ["db.query", "timers"]⟩ := by
    rw [authorize, sha256Hex_ping]
    decide +kernel
  exact (transplanted_iff twoVersions_documented (signerOf_binding _) (fun _ ↦ rfl)
    (toOption_eq_some.mp hfirst) (toOption_eq_some.mp hsecond) (by decide +kernel)
    (by decide +kernel) rfl rfl).mpr ⟨rfl, rfl⟩

/-- The same binary and the same signature under another file name. -/
theorem renamed_authorized :
    Documented twoVersions ∧ Binding signer ∧ ping.signature.isSigned = true ∧
      (authorize signer twoVersions ping [1] pingHash anyone).toOption.isSome ∧
      (authorize signer twoVersions { ping with library := "pong.dll" } [1] pingHash
        anyone).toOption.isSome ∧
      ¬Agree ping { ping with library := "pong.dll" } [1] [1] := by
  refine ⟨twoVersions_documented, signerOf_binding _, by decide +kernel, ?_, ?_, fun h ↦ ?_⟩
  · rw [authorize, sha256Hex_ping]
    decide +kernel
  · rw [authorize, sha256Hex_ping]
    decide +kernel
  · exact absurd h.library (by decide)

/-- A publisher that reads as the end of an identifier, a version and an ABI, and an identifier that
holds them. -/
def parted : ExtensionManifest × ExtensionManifest :=
  ({ ping with publisherId := "pub\x002.0.0\x001\x00pub" },
    { ping with extensionId := "ping\x001.0.0\x001\x00pub", version := "2.0.0" })

example : (let (m, m') := parted
    canonicalExtensionBytes m pingHash = canonicalExtensionBytes m' pingHash ∧
      m.library = m'.library ∧ m.version ≠ m'.version) := by decide +kernel

end Example

end Aldivine.Extensions.Transplants
