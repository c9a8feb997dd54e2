import Aldivine.Foundation.Fallible
import Aldivine.Foundation.Text
import Mathlib.Data.List.AList

namespace Aldivine.Packages.Model

open Foundation.Fallible Foundation.Text

inductive ProtectionPolicy
  | «open»
  | signed
  | «protected»
  | «private»
deriving DecidableEq

def ProtectionPolicy.asStr : ProtectionPolicy → String
  | .«open» => "OPEN"
  | .signed => "SIGNED"
  | .«protected» => "PROTECTED"
  | .«private» => "PRIVATE"

structure FileHash where
  path : String
  sha256Hex : String
  size : BitVec 64
deriving DecidableEq

structure Signature where
  algorithm : String
  publicKeyHex : String
  signatureHex : String
deriving DecidableEq

structure PackageManifest where
  packageId : String
  publisherId : String
  name : String
  version : String
  minimumRuntime : String
  framework : Option String
  dependencies : List String
  fileHashes : List FileHash
  totalSize : BitVec 64
  protection : ProtectionPolicy
  entitlementModel : String
  signature : Signature
deriving DecidableEq

/-- `missingSignature` stands in the source and is never built there. -/
inductive PackageError
  | malformed (text : String)
  | hashMismatch (path expected actual : String)
  | badSignature (packageId : String)
  | missingSignature (packageId : String)
  | unsupportedAlgorithm (algorithm : String)
deriving DecidableEq

section Hex

def hexDigit (n : UInt8) : Char :=
  if n < 10 then Char.ofNat (0x30 + n.toNat) else Char.ofNat (0x57 + n.toNat)

def hexEncode (bytes : List UInt8) : String :=
  String.ofList (bytes.flatMap fun (b : UInt8) ↦ [hexDigit (b >>> 4), hexDigit (b &&& 0xF)])

def hexVal (c : UInt8) : Option UInt8 :=
  if 0x30 ≤ c ∧ c ≤ 0x39 then some (c - 0x30)
  else if 0x61 ≤ c ∧ c ≤ 0x66 then some (c - 0x61 + 10)
  else if 0x41 ≤ c ∧ c ≤ 0x46 then some (c - 0x41 + 10)
  else none

def hexChunks : List UInt8 → Option (List UInt8)
  | [] => some []
  | [_] => none
  | hi :: lo :: rest => do
    let hi ← hexVal hi
    let lo ← hexVal lo
    let out ← hexChunks rest
    return (hi <<< 4 ||| lo) :: out

/-- An odd length is refused, and so is any byte that is no digit: `none` either way. -/
def hexDecode (hex : String) : Option (List UInt8) := hexChunks (utf8 hex)

/-- `hex_decode_fixed_32` and `hex_decode_fixed_64`. -/
def hexDecodeFixed (width : ℕ) (hex : String) : Option (List UInt8) := do
  let v ← hexDecode hex
  if v.length ≠ width then none else some v

end Hex

/-- The signature scheme and the digest, from crates that are not in the repository: which bytes
are a key, what a key verifies, and the digest of a buffer. -/
structure Primitives where
  validKey : List UInt8 → Bool
  verify : List UInt8 → List UInt8 → List UInt8 → Bool
  sha256 : List UInt8 → List UInt8

def Signature.algo : String := "ed25519"

def Signature.verify (crypto : Primitives) (s : Signature) (packageId : String)
    (message : List UInt8) : Except PackageError Unit := do
  refuse (s.algorithm ≠ Signature.algo) (.unsupportedAlgorithm s.algorithm)
  let pkBytes ← okOr (hexDecodeFixed 32 s.publicKeyHex) (.malformed "public key")
  let sigBytes ← okOr (hexDecodeFixed 64 s.signatureHex) (.malformed "signature")
  refuse (crypto.validKey pkBytes = false) (.malformed "public key")
  refuse (crypto.verify pkBytes message sigBytes = false) (.badSignature packageId)

def decimal (n : BitVec 64) : String := toString n.toNat

def FileHash.canonicalBytes (fh : FileHash) : List UInt8 :=
  utf8 fh.path ++ [0] ++ utf8 fh.sha256Hex ++ [0] ++ utf8 (decimal fh.size) ++ [0]

/-- The bytes that a publisher signs; the signature itself is left out. -/
def canonicalManifestBytes (m : PackageManifest) : List UInt8 :=
  utf8 m.packageId ++ [0] ++ utf8 m.publisherId ++ [0] ++ utf8 m.name ++ [0] ++
    utf8 m.version ++ [0] ++ utf8 m.minimumRuntime ++ [0] ++
    utf8 (m.framework.getD "") ++ [0] ++
    m.dependencies.flatMap (fun dep ↦ utf8 dep ++ [0]) ++
    m.fileHashes.flatMap FileHash.canonicalBytes ++
    utf8 (decimal m.totalSize) ++ [0] ++ utf8 m.protection.asStr ++ [0] ++
    utf8 m.entitlementModel

def sha256Hex (crypto : Primitives) (data : List UInt8) : String := hexEncode (crypto.sha256 data)

abbrev Payloads := AList (fun _ : String ↦ List UInt8)

def verifyFile (crypto : Primitives) (payloads : Payloads) (fh : FileHash) :
    Except PackageError Unit := do
  let data ← okOr (payloads.lookup fh.path) (.malformed ("missing payload '" ++ fh.path ++ "'"))
  let actual := sha256Hex crypto data
  refuse (actual ≠ fh.sha256Hex) (.hashMismatch fh.path fh.sha256Hex actual)

def verifyPayloads (crypto : Primitives) (m : PackageManifest) (payloads : Payloads) :
    Except PackageError Unit :=
  m.fileHashes.forM (verifyFile crypto payloads)

def verifyPackage (crypto : Primitives) (m : PackageManifest) (payloads : Payloads) :
    Except PackageError Unit := do
  match m.protection with
  | .«open» => pure ()
  | .signed | .«protected» | .«private» =>
    m.signature.verify crypto m.packageId (canonicalManifestBytes m)
  verifyPayloads crypto m payloads

end Aldivine.Packages.Model
