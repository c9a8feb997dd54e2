import Aldivine.Foundation.Utf8
import Aldivine.Packages.Model
import Std.Data.String.ToNat

namespace Aldivine.Packages.Canonical

open Foundation.Pieces Foundation.Text Foundation.Utf8 Model

structure SameCovered (m m' : PackageManifest) : Prop where
  packageId : m.packageId = m'.packageId
  publisherId : m.publisherId = m'.publisherId
  name : m.name = m'.name
  version : m.version = m'.version
  minimumRuntime : m.minimumRuntime = m'.minimumRuntime
  framework : m.framework = m'.framework
  dependencies : m.dependencies = m'.dependencies
  fileHashes : m.fileHashes = m'.fileHashes
  totalSize : m.totalSize = m'.totalSize
  protection : m.protection = m'.protection
  entitlementModel : m.entitlementModel = m'.entitlementModel

/-- The canonical bytes of `m` are those of no manifest that says something else. -/
def Determined (m : PackageManifest) : Prop :=
  ∀ m', canonicalManifestBytes m' = canonicalManifestBytes m → SameCovered m m'

section Texts

def nul : Char := Char.ofNat 0

def heads (m : PackageManifest) : List String :=
  [m.packageId, m.publisherId, m.name, m.version, m.minimumRuntime, m.framework.getD ""]

def FileHash.strings (fh : FileHash) : List String := [fh.path, fh.sha256Hex, decimal fh.size]

/-- The strings before the total size, each written with a NUL after it. -/
def ledger (m : PackageManifest) : List String :=
  heads m ++ m.dependencies ++ m.fileHashes.flatMap FileHash.strings

def terminated (m : PackageManifest) : List String :=
  ledger m ++ [decimal m.totalSize, m.protection.asStr]

def canonicalChars (m : PackageManifest) : List Char :=
  ((terminated m).map String.toList).flatMap (· ++ [nul]) ++ m.entitlementModel.toList

def pieces (s : String) : List (List Char) := s.toList.splitOn nul

def allPieces (m : PackageManifest) : List (List Char) :=
  (terminated m).flatMap pieces ++ pieces m.entitlementModel

theorem encode_nul : encode [nul] = [0] := by decide

theorem encode_terminated (l : List String) :
    encode ((l.map String.toList).flatMap (· ++ [nul])) = l.flatMap (fun s ↦ utf8 s ++ [0]) := by
  induction l with
  | nil => rfl
  | cons s l ih =>
    rw [List.map_cons, List.flatMap_cons, encode_append, encode_append, encode_nul, ih,
      List.flatMap_cons, utf8_eq_encode]

theorem canonicalBytes_eq (fh : FileHash) :
    fh.canonicalBytes = (FileHash.strings fh).flatMap (fun s ↦ utf8 s ++ [0]) := by
  simp [FileHash.canonicalBytes, FileHash.strings]

theorem canonicalManifestBytes_eq (m : PackageManifest) :
    canonicalManifestBytes m = encode (canonicalChars m) := by
  have hfiles : m.fileHashes.flatMap FileHash.canonicalBytes =
      (m.fileHashes.flatMap FileHash.strings).flatMap (fun s ↦ utf8 s ++ [0]) := by
    rw [List.flatMap_assoc]
    exact List.flatMap_congr (fun fh _ ↦ canonicalBytes_eq fh)
  unfold canonicalManifestBytes
  rw [canonicalChars, encode_append, encode_terminated, ← utf8_eq_encode, hfiles]
  simp [terminated, ledger, heads]

theorem splitOn_canonicalChars (m : PackageManifest) :
    (canonicalChars m).splitOn nul = allPieces m := by
  rw [canonicalChars, splitOn_terminated_append, List.flatMap_map, allPieces]
  rfl

/-- The bytes say what the pieces between the NULs are, and nothing about which field each piece
is from. -/
theorem same_bytes_iff {m m' : PackageManifest} :
    canonicalManifestBytes m' = canonicalManifestBytes m ↔ allPieces m' = allPieces m := by
  rw [canonicalManifestBytes_eq, canonicalManifestBytes_eq, encode_injective.eq_iff,
    ← splitOn_canonicalChars, ← splitOn_canonicalChars]
  constructor
  · intro h
    rw [h]
  · intro h
    have hjoin := congrArg [nul].intercalate h
    rwa [List.intercalate_splitOn, List.intercalate_splitOn] at hjoin

end Texts

section Strings

variable {s : String}

theorem pieces_ne_nil (s : String) : pieces s ≠ [] := List.splitOn_ne_nil _ _

theorem pieces_eq_singleton (h : nul ∉ s.toList) : pieces s = [s.toList] :=
  List.splitOn_eq_singleton h

theorem pieces_cut (before after : List Char) :
    pieces (String.ofList (before ++ nul :: after)) =
      pieces (String.ofList before) ++ pieces (String.ofList after) := by
  simp only [pieces, String.toList_ofList, List.splitOn_append_cons_self]

theorem pieces_whole {piece : List Char} (h : nul ∉ piece) :
    pieces (String.ofList piece) = [piece] := by
  rw [pieces_eq_singleton, String.toList_ofList]
  rwa [String.toList_ofList]

theorem flatMap_pieces_whole {parts : List (List Char)} (h : ∀ part ∈ parts, nul ∉ part) :
    (parts.map String.ofList).flatMap pieces = parts := by
  induction parts with
  | nil => rfl
  | cons part parts ih =>
    obtain ⟨hpart, hparts⟩ := List.forall_mem_cons.mp h
    rw [List.map_cons, List.flatMap_cons, pieces_whole hpart, ih hparts, List.singleton_append]

theorem pieces_join {parts : List (List Char)} (hne : parts ≠ [])
    (h : ∀ part ∈ parts, nul ∉ part) :
    pieces (String.ofList ([nul].intercalate parts)) = parts := by
  rw [pieces, String.toList_ofList]
  exact List.splitOn_intercalate nul h hne

theorem isDigit_of_mem_decimal {n : BitVec 64} {c : Char} (h : c ∈ (decimal n).toList) :
    c.isDigit = true := by
  rw [decimal, Nat.toString_eq_repr, Nat.toList_repr] at h
  exact Nat.isDigit_of_mem_toDigits (by decide) (by decide) h

theorem nul_not_mem_decimal (n : BitVec 64) : nul ∉ (decimal n).toList :=
  fun h ↦ absurd (isDigit_of_mem_decimal h) (by decide)

theorem nul_not_mem_asStr (p : ProtectionPolicy) : nul ∉ p.asStr.toList := by
  cases p <;> decide

theorem decimal_injective : Function.Injective decimal :=
  fun _ _ h ↦ BitVec.eq_of_toNat_eq (Nat.repr_injective h)

theorem asStr_injective : Function.Injective ProtectionPolicy.asStr := by
  intro p q h
  cases p <;> cases q <;> first | rfl | exact absurd h (by decide)

theorem asStr_ne_decimal (p : ProtectionPolicy) (n : BitVec 64) :
    p.asStr.toList ≠ (decimal n).toList := by
  intro h
  have hfirst : ∃ c ∈ p.asStr.toList, c.isDigit = false := by
    cases p with
    | «open» => exact ⟨'O', by decide, by decide⟩
    | signed => exact ⟨'S', by decide, by decide⟩
    | «protected» => exact ⟨'P', by decide, by decide⟩
    | «private» => exact ⟨'P', by decide, by decide⟩
  obtain ⟨c, hc, hdigit⟩ := hfirst
  rw [h] at hc
  rw [isDigit_of_mem_decimal hc] at hdigit
  cases hdigit

end Strings

section Determination

variable {m : PackageManifest}

/-- Some pieces read again as a total size and a policy, with more after them. -/
def Resumes (l : List (List Char)) : Prop :=
  ∃ before, ∃ (n : BitVec 64) (p : ProtectionPolicy), ∃ after,
    after ≠ [] ∧ l = before ++ (decimal n).toList :: p.asStr.toList :: after

structure Unambiguous (m : PackageManifest) : Prop where
  framework : ∃ f, m.framework = some f ∧ f ≠ ""
  dependencies : m.dependencies = []
  fileHashes : m.fileHashes = []
  heads : ∀ s ∈ heads m, nul ∉ s.toList
  entitlementModel : ¬Resumes (pieces m.entitlementModel)

/-- The manifest whose strings before the total size are `l`: six fields, then dependencies. -/
def regroup (m : PackageManifest) (l : List String) : PackageManifest :=
  { m with
    packageId := l.getD 0 ""
    publisherId := l.getD 1 ""
    name := l.getD 2 ""
    version := l.getD 3 ""
    minimumRuntime := l.getD 4 ""
    framework := some (l.getD 5 "")
    dependencies := l.drop 6
    fileHashes := [] }

theorem ledger_regroup {l : List String} (h : 6 ≤ l.length) : ledger (regroup m l) = l := by
  obtain ⟨a, b, c, d, e, f, rest, rfl⟩ : ∃ a b c d e f rest, l = a :: b :: c :: d :: e :: f ::
      rest := by
    match l, h with
    | a :: b :: c :: d :: e :: f :: rest, _ => exact ⟨a, b, c, d, e, f, rest, rfl⟩
  simp [ledger, heads, regroup]

theorem six_le_length_ledger (m : PackageManifest) : 6 ≤ (ledger m).length := by
  simp only [ledger, heads, List.length_append, List.length_cons, List.length_nil]
  omega

theorem allPieces_of_ledger {m' : PackageManifest} (h : ledger m' = ledger m)
    (hsize : m'.totalSize = m.totalSize) (hpolicy : m'.protection = m.protection)
    (hmodel : m'.entitlementModel = m.entitlementModel) : allPieces m' = allPieces m := by
  rw [allPieces, terminated, h, hsize, hpolicy, hmodel]
  rfl

theorem Determined.framework (h : Determined m) : ∃ f, m.framework = some f ∧ f ≠ "" := by
  have hother (fw : Option String) (hfw : fw.getD "" = m.framework.getD "") :
      m.framework = fw := by
    refine (h { m with framework := fw } (same_bytes_iff.mpr ?_)).framework
    exact allPieces_of_ledger (by simp only [ledger, heads, hfw]) rfl rfl rfl
  cases hf : m.framework with
  | none =>
    have hsome := hother (some "") (by rw [hf]; rfl)
    rw [hf] at hsome
    cases hsome
  | some f =>
    refine ⟨f, rfl, fun hempty ↦ ?_⟩
    have hnone := hother none (by rw [hf, hempty]; rfl)
    rw [hf] at hnone
    cases hnone

theorem Determined.grouped (h : Determined m) (l : List String) (hlen : 6 ≤ l.length)
    (hpieces : l.flatMap pieces = (ledger m).flatMap pieces) :
    m.dependencies = l.drop 6 ∧ m.fileHashes = [] := by
  have hsame : allPieces (regroup m l) = allPieces m := by
    rw [allPieces, terminated, ledger_regroup hlen, List.flatMap_append, hpieces,
      ← List.flatMap_append]
    rfl
  have hcovered := h _ (same_bytes_iff.mpr hsame)
  exact ⟨hcovered.dependencies, hcovered.fileHashes⟩

theorem Determined.fileHashes (h : Determined m) : m.fileHashes = [] :=
  (h.grouped (ledger m) (six_le_length_ledger m) rfl).2

theorem Determined.dependencies (h : Determined m) : m.dependencies = [] := by
  cases hdeps : m.dependencies with
  | nil => rfl
  | cons dep deps =>
    have hledger : ledger m = m.packageId :: m.publisherId :: m.name :: m.version ::
        m.minimumRuntime :: m.framework.getD "" :: dep :: deps := by
      simp [ledger, heads, hdeps, h.fileHashes]
    obtain ⟨joined, hjoined⟩ :
        ∃ s, pieces s = pieces m.packageId ++ pieces m.publisherId := by
      refine ⟨String.ofList (m.packageId.toList ++ nul :: m.publisherId.toList), ?_⟩
      rw [pieces_cut, String.ofList_toList, String.ofList_toList]
    have hpieces : (joined :: m.name :: m.version :: m.minimumRuntime ::
        m.framework.getD "" :: dep :: deps).flatMap pieces = (ledger m).flatMap pieces := by
      rw [hledger, List.flatMap_cons, hjoined, List.append_assoc]
      rfl
    have hgroup := (h.grouped _ (Nat.le_add_left 6 _) hpieces).1
    rw [hdeps] at hgroup
    have hlen := congrArg List.length hgroup
    simp at hlen

theorem Determined.heads (h : Determined m) : ∀ s ∈ heads m, nul ∉ s.toList := by
  intro s hs hmem
  have hledger : ledger m = Canonical.heads m := by
    simp [ledger, h.dependencies, h.fileHashes]
  obtain ⟨first, last, hsplit⟩ := List.append_of_mem hs
  obtain ⟨before, after, hcut⟩ := List.append_of_mem hmem
  have hpieces : pieces s = pieces (String.ofList before) ++ pieces (String.ofList after) := by
    rw [← pieces_cut, ← hcut, String.ofList_toList]
  have hlen : (first ++ String.ofList before :: String.ofList after :: last).length = 7 := by
    have hsix : (Canonical.heads m).length = 6 := rfl
    rw [hsplit, List.length_append, List.length_cons] at hsix
    rw [List.length_append, List.length_cons, List.length_cons]
    omega
  have hsame : (first ++ String.ofList before :: String.ofList after :: last).flatMap pieces =
      (ledger m).flatMap pieces := by
    rw [hledger, hsplit, List.flatMap_append, List.flatMap_append, List.flatMap_cons,
      List.flatMap_cons, List.flatMap_cons, hpieces, List.append_assoc]
  have hgroup := (h.grouped _ (by rw [hlen]; decide) hsame).1
  have hdrop := congrArg List.length hgroup
  rw [h.dependencies, List.length_drop, hlen] at hdrop
  cases hdrop

theorem Determined.entitlementModel (h : Determined m) :
    ¬Resumes (pieces m.entitlementModel) := by
  intro hresumes
  obtain ⟨before, n, p, after, hne, hsplit⟩ := hresumes
  have hfree : ∀ part ∈ pieces m.entitlementModel, nul ∉ part :=
    fun part hpart ↦ not_mem_of_mem_splitOn hpart
  rw [hsplit] at hfree
  have hbefore : ∀ part ∈ before, nul ∉ part :=
    fun part hpart ↦ hfree part (List.mem_append_left _ hpart)
  have hafter : ∀ part ∈ after, nul ∉ part := fun part hpart ↦
    hfree part (List.mem_append_right _ (List.mem_cons_of_mem _ (List.mem_cons_of_mem _ hpart)))
  have hdecimal (k : BitVec 64) : pieces (decimal k) = [(decimal k).toList] :=
    pieces_eq_singleton (nul_not_mem_decimal k)
  have hpolicy (q : ProtectionPolicy) : pieces q.asStr = [q.asStr.toList] :=
    pieces_eq_singleton (nul_not_mem_asStr q)
  obtain ⟨l, hl⟩ : ∃ l, l = ledger m ++ decimal m.totalSize :: m.protection.asStr ::
      before.map String.ofList := ⟨_, rfl⟩
  have hledger : (ledger m).length = 6 := by
    simp [ledger, Canonical.heads, h.dependencies, h.fileHashes]
  have hlen : l.length = before.length + 8 := by
    rw [hl, List.length_append, hledger, List.length_cons, List.length_cons, List.length_map]
    omega
  have hsame : allPieces { regroup m l with
      totalSize := n
      protection := p
      entitlementModel := String.ofList ([nul].intercalate after) } = allPieces m := by
    rw [allPieces, pieces_join hne hafter, terminated, allPieces, terminated, hsplit]
    have hregroup : ledger (regroup m l) = l := ledger_regroup (by omega)
    change (ledger (regroup m l) ++ [decimal n, p.asStr]).flatMap pieces ++ after = _
    rw [hregroup, hl]
    simp only [List.flatMap_append, List.flatMap_cons, List.flatMap_nil, hdecimal, hpolicy,
      flatMap_pieces_whole hbefore, List.append_assoc, List.append_nil, List.cons_append,
      List.nil_append]
  have hdeps : m.dependencies = l.drop 6 := (h _ (same_bytes_iff.mpr hsame)).dependencies
  have hdrop := congrArg List.length hdeps
  rw [h.dependencies, List.length_drop, hlen, List.length_nil] at hdrop
  omega

theorem allPieces_eq (m : PackageManifest) :
    allPieces m = (ledger m).flatMap pieces ++
      (decimal m.totalSize).toList :: m.protection.asStr.toList :: pieces m.entitlementModel := by
  rw [allPieces, terminated, List.flatMap_append, List.flatMap_cons, List.flatMap_cons,
    List.flatMap_nil, pieces_eq_singleton (nul_not_mem_decimal _),
    pieces_eq_singleton (nul_not_mem_asStr _), List.append_assoc]
  rfl

theorem flatMap_pieces_of_free {l : List String} (h : ∀ s ∈ l, nul ∉ s.toList) :
    l.flatMap pieces = l.map String.toList := by
  rw [← flatMap_splitOn (List.forall_mem_map.mpr h), List.flatMap_map]
  rfl

theorem six_le_length_pieces (m : PackageManifest) : 6 ≤ ((ledger m).flatMap pieces).length :=
  (six_le_length_ledger m).trans (length_le_flatMap (fun s _ ↦ pieces_ne_nil s))

theorem ledger_of_six (h : ((ledger m).flatMap pieces).length = 6) :
    m.dependencies = [] ∧ m.fileHashes = [] ∧
      (ledger m).flatMap pieces = (heads m).map String.toList := by
  have hlen : (ledger m).length = 6 := by
    refine le_antisymm ?_ (six_le_length_ledger m)
    rw [← h]
    exact length_le_flatMap (fun s _ ↦ pieces_ne_nil s)
  have hparts : m.dependencies.length + (m.fileHashes.flatMap FileHash.strings).length = 0 := by
    simp only [ledger, heads, List.length_append, List.length_cons, List.length_nil] at hlen
    omega
  have hdeps : m.dependencies = [] := List.length_eq_zero_iff.mp (by omega)
  have hfiles : m.fileHashes = [] := by
    have hstrings := List.length_eq_zero_iff.mp
      (show (m.fileHashes.flatMap FileHash.strings).length = 0 by omega)
    cases hf : m.fileHashes with
    | nil => rfl
    | cons fh rest =>
      rw [hf] at hstrings
      cases hstrings
  have hheads : ledger m = heads m := by
    rw [ledger, hdeps, hfiles, List.append_nil, List.flatMap_nil, List.append_nil]
  refine ⟨hdeps, hfiles, ?_⟩
  rw [hheads] at h ⊢
  have hfree : ∀ part ∈ (heads m).map String.toList, nul ∉ part := by
    refine not_mem_of_length_eq ?_
    rw [List.flatMap_map, List.length_map]
    exact h
  exact flatMap_pieces_of_free (fun s hs ↦ hfree _ (List.mem_map_of_mem hs))

theorem allPieces_of_unambiguous (h : Unambiguous m) :
    allPieces m = (heads m).map String.toList ++
      (decimal m.totalSize).toList :: m.protection.asStr.toList :: pieces m.entitlementModel := by
  have hledger : ledger m = heads m := by
    rw [ledger, h.dependencies, h.fileHashes, List.append_nil, List.flatMap_nil, List.append_nil]
  rw [allPieces_eq, hledger, flatMap_pieces_of_free h.heads]

/-- Another manifest with the same pieces has its total size where `m` has it, or further on, where
the entitlement model would have to resume. -/
theorem Unambiguous.determined (h : Unambiguous m) : Determined m := by
  intro m' hbytes
  have hpieces := same_bytes_iff.mp hbytes
  rw [allPieces_of_unambiguous h, allPieces_eq] at hpieces
  have hsix := six_le_length_pieces m'
  have hheads : ((Canonical.heads m).map String.toList).length = 6 := rfl
  obtain ⟨extra, hextra, hrest⟩ : ∃ extra,
      (ledger m').flatMap pieces = (Canonical.heads m).map String.toList ++ extra ∧
        (decimal m.totalSize).toList :: m.protection.asStr.toList :: pieces m.entitlementModel =
          extra ++ (decimal m'.totalSize).toList :: m'.protection.asStr.toList ::
            pieces m'.entitlementModel := by
    obtain ⟨extra, hfirst, hlast⟩ | ⟨extra, hfirst, hlast⟩ := List.append_eq_append_iff.mp hpieces
    · have hnone : extra = [] := by
        refine List.length_eq_zero_iff.mp ?_
        rw [hfirst, List.length_append] at hheads
        omega
      subst hnone
      refine ⟨[], ?_, hlast.symm⟩
      rw [List.append_nil, hfirst, List.append_nil]
    · exact ⟨extra, hfirst, hlast⟩
  match extra with
  | [] =>
    rw [List.append_nil] at hextra
    obtain ⟨hdeps, hfiles, hfields⟩ := ledger_of_six (by rw [hextra]; rfl)
    rw [hextra] at hfields
    obtain ⟨f, hf, hne⟩ := h.framework
    simp only [Canonical.heads, List.map_cons, List.map_nil, List.cons.injEq, String.toList_inj, and_true,
      hf, Option.getD_some] at hfields
    obtain ⟨hid, hpublisher, hname, hversion, hruntime, hframework⟩ := hfields
    have hsome : m'.framework = some f := by
      cases hf' : m'.framework with
      | none =>
        rw [hf', Option.getD_none] at hframework
        exact absurd hframework hne
      | some f' =>
        rw [hf', Option.getD_some] at hframework
        rw [hframework]
    rw [List.nil_append, List.cons.injEq, List.cons.injEq, String.toList_inj,
      String.toList_inj] at hrest
    obtain ⟨hsize, hpolicy, hmodel⟩ := hrest
    have hsame : m.entitlementModel.toList = m'.entitlementModel.toList := by
      have hjoin := congrArg [nul].intercalate hmodel
      rwa [pieces, pieces, List.intercalate_splitOn, List.intercalate_splitOn] at hjoin
    exact ⟨hid, hpublisher, hname, hversion, hruntime, hf.trans hsome.symm,
      h.dependencies.trans hdeps.symm, h.fileHashes.trans hfiles.symm, decimal_injective hsize,
      asStr_injective hpolicy, String.toList_inj.mp hsame⟩
  | [first] =>
    rw [List.singleton_append, List.cons.injEq, List.cons.injEq] at hrest
    exact absurd hrest.2.1 (asStr_ne_decimal _ _)
  | first :: second :: before =>
    rw [List.cons_append, List.cons_append, List.cons.injEq, List.cons.injEq] at hrest
    exact absurd ⟨before, m'.totalSize, m'.protection, _, pieces_ne_nil _, hrest.2.2⟩
      h.entitlementModel

theorem canonical_determined_iff (m : PackageManifest) : Determined m ↔ Unambiguous m :=
  ⟨fun h ↦ ⟨h.framework, h.dependencies, h.fileHashes, h.heads, h.entitlementModel⟩,
    Unambiguous.determined⟩

end Determination

section Example

def listing : PackageManifest where
  packageId := "pkg"
  publisherId := "pub"
  name := "Test"
  version := "1.0.0"
  minimumRuntime := "0.1.0"
  framework := some "aldivine"
  dependencies := []
  fileHashes := [⟨"init.lua", "2cf24dba5fb0a30e26e83b2ac5b9e29e1b161e5c1fa7425e73043362938b9824", 5⟩]
  totalSize := 5
  protection := .signed
  entitlementModel := "FREE"
  signature := ⟨"ed25519", "", ""⟩

def stripped : PackageManifest :=
  { listing with
    dependencies :=
      ["init.lua", "2cf24dba5fb0a30e26e83b2ac5b9e29e1b161e5c1fa7425e73043362938b9824", "5"]
    fileHashes := [] }

theorem stripped_signs_alike :
    canonicalManifestBytes stripped = canonicalManifestBytes listing ∧
      ¬SameCovered listing stripped := by
  refine ⟨by decide +kernel, fun h ↦ ?_⟩
  have hfiles := congrArg List.length h.fileHashes
  cases hfiles

end Example

end Aldivine.Packages.Canonical
