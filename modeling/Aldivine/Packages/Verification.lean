import Aldivine.Edge.Hashing
import Aldivine.Foundation.Fallible
import Aldivine.Packages.Model
import Mathlib.Algebra.Order.Ring.Nat

namespace Aldivine.Packages.Verification

open Foundation.Fallible Foundation.Text Edge.Hashing Model

variable {crypto : Primitives} {m : PackageManifest} {payloads : Payloads}

/-- The signature is the declared algorithm's, its key is one, and the key verifies the canonical
bytes. -/
def Signed (crypto : Primitives) (m : PackageManifest) : Prop :=
  m.signature.algorithm = Signature.algo ∧
    ∃ key ∈ hexDecodeFixed 32 m.signature.publicKeyHex,
      ∃ sig ∈ hexDecodeFixed 64 m.signature.signatureHex,
        crypto.validKey key = true ∧
          crypto.verify key (canonicalManifestBytes m) sig = true

structure Vouched (crypto : Primitives) (m : PackageManifest) (payloads : Payloads) : Prop where
  paths : ∀ path, path ∈ payloads ↔ path ∈ m.fileHashes.map FileHash.path
  oneHash : ∀ f ∈ m.fileHashes, ∀ g ∈ m.fileHashes, f.path = g.path → f.sha256Hex = g.sha256Hex
  hashes : ∀ fh ∈ m.fileHashes, ∀ data ∈ payloads.lookup fh.path,
    sha256Hex crypto data = fh.sha256Hex
  sizes : ∀ fh ∈ m.fileHashes, ∀ data ∈ payloads.lookup fh.path, data.length = fh.size.toNat
  total : m.totalSize.toNat = (m.fileHashes.map fun fh ↦ fh.size.toNat).sum
  signature : m.protection ≠ .«open» → Signed crypto m

/-- The part of the promise that no branch of the code reads. -/
structure Tallied (m : PackageManifest) (payloads : Payloads) : Prop where
  listed : ∀ path ∈ payloads, path ∈ m.fileHashes.map FileHash.path
  sizes : ∀ fh ∈ m.fileHashes, ∀ data ∈ payloads.lookup fh.path, data.length = fh.size.toNat
  total : m.totalSize.toNat = (m.fileHashes.map fun fh ↦ fh.size.toNat).sum

section Checks

theorem verify_eq_ok :
    m.signature.verify crypto m.packageId (canonicalManifestBytes m) = .ok () ↔
      Signed crypto m := by
  rw [Signature.verify, check_bind_eq_ok, refuse_eq_ok, not_not, Signed]
  simp only [↓check_bind_eq_ok, bind_eq_ok, okOr_eq_ok, refuse_eq_ok, Option.mem_def,
    Bool.not_eq_false]

theorem verifyFile_eq_ok {fh : FileHash} :
    verifyFile crypto payloads fh = .ok () ↔
      ∃ data, payloads.lookup fh.path = some data ∧ sha256Hex crypto data = fh.sha256Hex := by
  simp only [verifyFile, bind_eq_ok, okOr_eq_ok, refuse_eq_ok, ne_eq, not_not]

theorem verifyPayloads_eq_ok :
    verifyPayloads crypto m payloads = .ok () ↔ ∀ fh ∈ m.fileHashes,
      ∃ data, payloads.lookup fh.path = some data ∧ sha256Hex crypto data = fh.sha256Hex := by
  rw [verifyPayloads, List.forM_eq_forM, forM_eq_ok]
  exact forall₂_congr (fun fh _ ↦ verifyFile_eq_ok)

/-- All that acceptance says: a signature where one is due, and a payload with the listed digest for
every listed file. -/
theorem verifyPackage_eq_ok :
    verifyPackage crypto m payloads = .ok () ↔
      (m.protection ≠ .«open» → Signed crypto m) ∧ ∀ fh ∈ m.fileHashes,
        ∃ data, payloads.lookup fh.path = some data ∧ sha256Hex crypto data = fh.sha256Hex := by
  rw [← verifyPayloads_eq_ok, verifyPackage]
  cases hp : m.protection with
  | «open» => simp
  | signed => simp [check_bind_eq_ok, verify_eq_ok]
  | «protected» => simp [check_bind_eq_ok, verify_eq_ok]
  | «private» => simp [check_bind_eq_ok, verify_eq_ok]

end Checks

theorem accepted_lists (h : verifyPackage crypto m payloads = .ok ()) :
    (∀ path ∈ m.fileHashes.map FileHash.path, path ∈ payloads) ∧
      ∀ fh ∈ m.fileHashes, ∀ data ∈ payloads.lookup fh.path,
        sha256Hex crypto data = fh.sha256Hex := by
  have hfiles := (verifyPackage_eq_ok.mp h).2
  constructor
  · intro path hpath
    obtain ⟨fh, hfh, rfl⟩ := List.mem_map.mp hpath
    obtain ⟨data, hdata, _⟩ := hfiles fh hfh
    exact AList.lookup_isSome.mp (Option.isSome_of_mem hdata)
  · intro fh hfh data hdata
    obtain ⟨found, hfound, hhash⟩ := hfiles fh hfh
    rw [Option.mem_unique hdata hfound]
    exact hhash

theorem accepted_oneHash (h : verifyPackage crypto m payloads = .ok ()) :
    ∀ f ∈ m.fileHashes, ∀ g ∈ m.fileHashes, f.path = g.path → f.sha256Hex = g.sha256Hex := by
  intro f hf g hg hpath
  obtain ⟨data, hdata, hhash⟩ := (verifyPackage_eq_ok.mp h).2 f hf
  have hother := (accepted_lists h).2 g hg data (hpath ▸ hdata)
  rw [← hhash, hother]

theorem verifyPackage_congr {others : Payloads}
    (h : ∀ fh ∈ m.fileHashes, others.lookup fh.path = payloads.lookup fh.path) :
    verifyPackage crypto m others = .ok () ↔ verifyPackage crypto m payloads = .ok () := by
  rw [verifyPackage_eq_ok, verifyPackage_eq_ok]
  refine and_congr_right (fun _ ↦ forall₂_congr (fun fh hfh ↦ ?_))
  rw [h fh hfh]

/-- An accepted package keeps its promise exactly when the tally, which the code does not take,
happens to come out. -/
theorem verifyPackage_vouches_iff (h : verifyPackage crypto m payloads = .ok ()) :
    Vouched crypto m payloads ↔ Tallied m payloads := by
  obtain ⟨hlisted, hhashes⟩ := accepted_lists h
  constructor
  · intro hv
    exact ⟨fun path hpath ↦ (hv.paths path).mp hpath, hv.sizes, hv.total⟩
  · intro ht
    exact ⟨fun path ↦ ⟨ht.listed path, hlisted path⟩, accepted_oneHash h, hhashes, ht.sizes,
      ht.total, (verifyPackage_eq_ok.mp h).1⟩

section Stowaway

/-- SHA-256, and no key at all. -/
def keyless : Primitives where
  validKey _ := false
  verify _ _ _ := false
  sha256 := sha256Bytes

/-- A manifest of two files, of eight bytes and of three. -/
def marker : PackageManifest where
  packageId := "pkg"
  publisherId := "pub"
  name := "Test"
  version := "1.0.0"
  minimumRuntime := "0.1.0"
  framework := some "aldivine"
  dependencies := []
  fileHashes :=
    [⟨"init.lua", "486d9affb60dbb0063b03d8e23a6ccf6364ce203dc3a9f56f20e750eb41ecade", 8⟩,
      ⟨"hud.txt", "78cf4842afe41dcb96be60c73489b311db583418c3c4e98f4f1dea3fc42995ad", 3⟩]
  totalSize := 11
  protection := .«open»
  entitlementModel := "FREE"
  signature := ⟨"ed25519", "", ""⟩

def listedOnly : Payloads :=
  ((∅ : Payloads).insert "hud.txt" (utf8 "hud")).insert "init.lua" (utf8 "return 1")

def withStowaway : Payloads := listedOnly.insert "evil.lua" [0x6F]

theorem marker_accepted : verifyPackage keyless marker listedOnly = .ok () := by decide +kernel

theorem marker_tallied : Tallied marker listedOnly := by
  refine ⟨fun path hpath ↦ ?_, by decide, by decide⟩
  have hnames : path = "init.lua" ∨ path = "hud.txt" := by
    simpa [listedOnly, AList.mem_keys] using hpath
  rcases hnames with rfl | rfl <;> decide

theorem marker_vouched : Vouched keyless marker listedOnly :=
  (verifyPackage_vouches_iff marker_accepted).mpr marker_tallied

theorem stowaway_rides_along :
    verifyPackage keyless marker withStowaway = .ok () ∧
      ¬Vouched keyless marker withStowaway := by
  refine ⟨by decide +kernel, fun h ↦ ?_⟩
  have hlisted := (h.paths "evil.lua").mp (by decide)
  exact absurd hlisted (by decide)

end Stowaway

end Aldivine.Packages.Verification
