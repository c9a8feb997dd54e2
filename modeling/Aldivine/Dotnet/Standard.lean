import Aldivine.Dotnet.Tables
import Aldivine.Foundation.Layout
import Mathlib.Data.List.ReduceOption
import Mathlib.Data.Nat.Log
import Mathlib.Tactic.IntervalCases

namespace Aldivine.Dotnet.Standard

open Foundation.Machine Foundation.Checked Foundation.Layout Tables

/-! The row layouts of ECMA-335 II.22 and the index widths of II.24.2.6. -/

/-- The kinds of coded indices: which table each tag stands for. -/
inductive Family
  | typeDefOrRef
  | hasConstant
  | hasCustomAttribute
  | hasFieldMarshal
  | hasDeclSecurity
  | memberRefParent
  | hasSemantics
  | methodDefOrRef
  | memberForwarded
  | implementation
  | customAttributeType
  | resolutionScope
  | typeOrMethodDef
deriving DecidableEq

def Family.tags : Family → List (Option ℕ)
  | .typeDefOrRef => [some 0x02, some 0x01, some 0x1b]
  | .hasConstant => [some 0x04, some 0x08, some 0x17]
  | .hasCustomAttribute =>
    [some 0x06, some 0x04, some 0x01, some 0x02, some 0x08, some 0x09, some 0x0a, some 0x00,
      some 0x0e, some 0x17, some 0x14, some 0x11, some 0x1a, some 0x1b, some 0x20, some 0x23,
      some 0x26, some 0x27, some 0x28, some 0x2a, some 0x2c, some 0x2b]
  | .hasFieldMarshal => [some 0x04, some 0x08]
  | .hasDeclSecurity => [some 0x02, some 0x06, some 0x20]
  | .memberRefParent => [some 0x02, some 0x01, some 0x1a, some 0x06, some 0x1b]
  | .hasSemantics => [some 0x14, some 0x17]
  | .methodDefOrRef => [some 0x06, some 0x0a]
  | .memberForwarded => [some 0x04, some 0x06]
  | .implementation => [some 0x26, some 0x23, some 0x27]
  | .customAttributeType => [none, none, some 0x06, some 0x0a, none]
  | .resolutionScope => [some 0x00, some 0x1a, some 0x23, some 0x01]
  | .typeOrMethodDef => [some 0x02, some 0x06]

def Family.tables (f : Family) : List ℕ := f.tags.reduceOption

def Family.tagBits (f : Family) : ℕ := Nat.clog 2 f.tags.length

inductive Column
  | const (bytes : ℕ)
  | string
  | guid
  | blob
  | index (table : ℕ)
  | coded (family : Family)
deriving DecidableEq

/-- The columns of each table. The standard leaves 0x03, 0x05, 0x07, 0x13, 0x16, 0x1e and 0x1f to
the pointer and edit-and-continue tables of uncompressed streams; they have the columns that those
streams give them. -/
def schema : ℕ → List Column
  | 0x00 => [.const 2, .string, .guid, .guid, .guid]
  | 0x01 => [.coded .resolutionScope, .string, .string]
  | 0x02 => [.const 4, .string, .string, .coded .typeDefOrRef, .index 0x04, .index 0x06]
  | 0x03 => [.index 0x04]
  | 0x04 => [.const 2, .string, .blob]
  | 0x05 => [.index 0x06]
  | 0x06 => [.const 4, .const 2, .const 2, .string, .blob, .index 0x08]
  | 0x07 => [.index 0x08]
  | 0x08 => [.const 2, .const 2, .string]
  | 0x09 => [.index 0x02, .coded .typeDefOrRef]
  | 0x0a => [.coded .memberRefParent, .string, .blob]
  | 0x0b => [.const 1, .const 1, .coded .hasConstant, .blob]
  | 0x0c => [.coded .hasCustomAttribute, .coded .customAttributeType, .blob]
  | 0x0d => [.coded .hasFieldMarshal, .blob]
  | 0x0e => [.const 2, .coded .hasDeclSecurity, .blob]
  | 0x0f => [.const 2, .const 4, .index 0x02]
  | 0x10 => [.const 4, .index 0x04]
  | 0x11 => [.blob]
  | 0x12 => [.index 0x02, .index 0x14]
  | 0x13 => [.index 0x14]
  | 0x14 => [.const 2, .string, .coded .typeDefOrRef]
  | 0x15 => [.index 0x02, .index 0x17]
  | 0x16 => [.index 0x17]
  | 0x17 => [.const 2, .string, .blob]
  | 0x18 => [.const 2, .index 0x06, .coded .hasSemantics]
  | 0x19 => [.index 0x02, .coded .methodDefOrRef, .coded .methodDefOrRef]
  | 0x1a => [.string]
  | 0x1b => [.blob]
  | 0x1c => [.const 2, .coded .memberForwarded, .string, .index 0x1a]
  | 0x1d => [.const 4, .index 0x04]
  | 0x1e => [.const 4, .const 4]
  | 0x1f => [.const 4]
  | 0x20 => [.const 4, .const 2, .const 2, .const 2, .const 2, .const 4, .blob, .string, .string]
  | 0x21 => [.const 4]
  | 0x22 => [.const 4, .const 4, .const 4]
  | 0x23 => [.const 2, .const 2, .const 2, .const 2, .const 4, .blob, .string, .string, .blob]
  | 0x24 => [.const 4, .index 0x23]
  | 0x25 => [.const 4, .const 4, .const 4, .index 0x23]
  | 0x26 => [.const 4, .string, .blob]
  | 0x27 => [.const 4, .const 4, .string, .string, .coded .implementation]
  | 0x28 => [.const 4, .const 4, .string, .coded .implementation]
  | 0x29 => [.index 0x02, .index 0x02]
  | 0x2a => [.const 2, .const 2, .coded .typeOrMethodDef, .string]
  | 0x2b => [.coded .methodDefOrRef, .blob]
  | 0x2c => [.index 0x2a, .coded .typeDefOrRef]
  | _ => []

section Widths

variable (heapSizes : UInt8) (rows : ℕ → ℕ)

def heapWidth (bit : ℕ) : ℕ := if heapSizes.toNat.testBit bit then 4 else 2

/-- Four bytes when the largest of the tables has too many rows for what the tag leaves of two. -/
def Family.width (f : Family) : ℕ :=
  if ∀ t ∈ f.tables, rows t < 2 ^ (16 - f.tagBits) then 2 else 4

def Column.width : Column → ℕ
  | .const bytes => bytes
  | .string => heapWidth heapSizes 0
  | .guid => heapWidth heapSizes 1
  | .blob => heapWidth heapSizes 2
  | .index t => if rows t < 2 ^ 16 then 2 else 4
  | .coded f => f.width rows

def rowWidth (t : ℕ) : ℕ := ((schema t).map (Column.width heapSizes rows)).sum

/-- Where a table starts, when the first one starts at `first`: the tables that are present lie one
behind the other. -/
def tableStart (valid : BitVec 64) (first t : ℕ) : ℕ :=
  first + startOf (fun u ↦ valid.getLsbD u = true) (fun u ↦ rowWidth heapSizes rows u * rows u) t

end Widths

/-- The tables whose layout is another's, and those whose layout looks at the wrong tables. -/
def Faithful (rows : ℕ → ℕ) (t : ℕ) : Prop :=
  t ∉ [0x21, 0x22, 0x24, 0x25] ∧
    (t = 0x27 ∨ t = 0x28 →
      2 ^ 14 ≤ rows 0x26 ∨ 2 ^ 14 ≤ rows 0x27 ∨ (rows 0x02 < 2 ^ 14 ↔ rows 0x23 < 2 ^ 14))

section Agreement

variable {heapSizes : UInt8} {rows : ℕ → ℕ}

theorem and_two_pow_ne_zero_iff (n i : ℕ) : n &&& 2 ^ i ≠ 0 ↔ n.testBit i = true := by
  have hbit (j : ℕ) : (n &&& 2 ^ i).testBit j = (n.testBit j && decide (i = j)) := by
    rw [Nat.testBit_and, Nat.testBit_two_pow]
  constructor
  · intro hne
    obtain ⟨j, hj⟩ := Nat.exists_testBit_of_ne_zero hne
    rw [hbit, Bool.and_eq_true, decide_eq_true_iff] at hj
    rw [hj.2]
    exact hj.1
  · intro hset hzero
    have hi := hbit i
    rw [hzero, Nat.zero_testBit, hset, decide_eq_true rfl] at hi
    cases hi

theorem flag_iff (heapSizes : UInt8) {mask : UInt8} {i : ℕ} (hmask : mask.toNat = 2 ^ i) :
    decide (heapSizes &&& mask ≠ 0) = true ↔ heapSizes.toNat.testBit i = true := by
  rw [decide_eq_true_iff, ← and_two_pow_ne_zero_iff, ne_eq, ne_eq, ← UInt8.toNat_inj,
    UInt8.toNat_and, hmask, UInt8.toNat_zero]

theorem strIdx_eq (heapSizes : UInt8) (rows : ℕ → ℕ) :
    (Ctx.ofHeapSizes heapSizes rows).strIdx = heapWidth heapSizes 0 :=
  if_congr (flag_iff heapSizes rfl) rfl rfl

theorem guidIdx_eq (heapSizes : UInt8) (rows : ℕ → ℕ) :
    (Ctx.ofHeapSizes heapSizes rows).guidIdx = heapWidth heapSizes 1 :=
  if_congr (flag_iff heapSizes rfl) rfl rfl

theorem blobIdx_eq (heapSizes : UInt8) (rows : ℕ → ℕ) :
    (Ctx.ofHeapSizes heapSizes rows).blobIdx = heapWidth heapSizes 2 :=
  if_congr (flag_iff heapSizes rfl) rfl rfl

theorem simple_eq (heapSizes : UInt8) (rows : ℕ → ℕ) (t : ℕ) :
    (Ctx.ofHeapSizes heapSizes rows).simple t = if rows t < 2 ^ 16 then 2 else 4 := by
  by_cases h : rows t < 2 ^ 16
  · rw [if_pos h]
    exact if_neg (Nat.not_le.mpr h)
  · rw [if_neg h]
    exact if_pos (Nat.le_of_not_lt h)

theorem coded_lt_iff (rows : ℕ → ℕ) {bound : ℕ} (tables : List ℕ) (acc : ℕ) :
    tables.foldl (fun max t ↦ if t = 0 then max else Nat.max max (rows t)) acc < bound ↔
      acc < bound ∧ ∀ t ∈ tables, t ≠ 0 → rows t < bound := by
  induction tables generalizing acc with
  | nil => simp
  | cons t tables ih =>
    rw [List.foldl_cons, ih, List.forall_mem_cons]
    by_cases ht : t = 0
    · simp [ht]
    · rw [if_neg ht, Nat.max_lt, and_assoc]
      simp [ht]

def Family.codeTables : Family → List ℕ
  | .typeDefOrRef => [0x02, 0x01, 0x1b]
  | .hasConstant => [0x04, 0x08, 0x17]
  | .hasCustomAttribute => Tables.hasCustomAttribute
  | .hasFieldMarshal => [0x04, 0x08]
  | .hasDeclSecurity => [0x02, 0x06, 0x20]
  | .memberRefParent => [0x02, 0x01, 0x1a, 0x06, 0x1b]
  | .hasSemantics => [0x14, 0x17]
  | .methodDefOrRef => [0x06, 0x0a]
  | .memberForwarded => [0x04, 0x06]
  | .implementation => [0x26, 0x27, 0x02]
  | .customAttributeType => [0, 0, 0x06, 0x0a, 0]
  | .resolutionScope => [0x00, 0x1a, 0x23, 0x01]
  | .typeOrMethodDef => [0x02, 0x06]

theorem coded_eq (hmodule : rows 0 = 1) {f : Family} (hf : f ≠ .implementation) {bits : ℕ}
    {tables : List ℕ} (hbits : f.tagBits = bits) (htables : f.codeTables = tables) :
    (Ctx.ofHeapSizes heapSizes rows).coded bits tables = f.width rows := by
  subst hbits htables
  have hlt : f.tagBits < 16 := by
    cases f <;> decide
  have hsub : ∀ t ∈ f.codeTables, t ≠ 0 → t ∈ f.tables := by
    cases f with
    | implementation => exact absurd rfl hf
    | _ => decide
  have hsup : ∀ t ∈ f.tables, t ≠ 0 → t ∈ f.codeTables := by
    cases f with
    | implementation => exact absurd rfl hf
    | _ => decide
  have hbound : 2 ^ 1 ≤ 2 ^ (16 - f.tagBits) :=
    Nat.pow_le_pow_right Nat.two_pos (Nat.sub_pos_of_lt hlt)
  refine if_congr ((coded_lt_iff rows f.codeTables 0).trans ?_) rfl rfl
  constructor
  · intro h t ht
    by_cases hzero : t = 0
    · rw [hzero, hmodule]
      omega
    · exact h.2 t (hsup t ht hzero) hzero
  · intro h
    exact ⟨by omega, fun t ht hzero ↦ h t (hsub t ht hzero)⟩

/-- The columns of the code's widths, in the standard's words. -/
theorem rowSize_ok (hmodule : rows 0 = 1) {t : ℕ} (ht : t ≤ 0x2c)
    (hlayout : t ∉ [0x21, 0x22, 0x24, 0x25, 0x27, 0x28]) :
    rowSize t (.ofHeapSizes heapSizes rows) = .ok (rowWidth heapSizes rows t) := by
  have hcoded (f : Family) (hf : f ≠ .implementation) {bits : ℕ} {tables : List ℕ} :=
    @coded_eq heapSizes rows hmodule f hf bits tables
  have hextends := @hcoded .typeDefOrRef (by decide) 2 [0x02, 0x01, 0x1b] (by decide) rfl
  have hconstant := @hcoded .hasConstant (by decide) 2 [0x04, 0x08, 0x17] (by decide) rfl
  have hattribute := @hcoded .hasCustomAttribute (by decide) 5 Tables.hasCustomAttribute (by decide) rfl
  have hmarshal := @hcoded .hasFieldMarshal (by decide) 1 [0x04, 0x08] (by decide) rfl
  have hsecurity := @hcoded .hasDeclSecurity (by decide) 2 [0x02, 0x06, 0x20] (by decide) rfl
  have hparent := @hcoded .memberRefParent (by decide) 3 [0x02, 0x01, 0x1a, 0x06, 0x1b] (by decide) rfl
  have hsemantics := @hcoded .hasSemantics (by decide) 1 [0x14, 0x17] (by decide) rfl
  have hmethod := @hcoded .methodDefOrRef (by decide) 1 [0x06, 0x0a] (by decide) rfl
  have hforwarded := @hcoded .memberForwarded (by decide) 1 [0x04, 0x06] (by decide) rfl
  have htype := @hcoded .customAttributeType (by decide) 3 [0, 0, 0x06, 0x0a, 0] (by decide) rfl
  have hscope := @hcoded .resolutionScope (by decide) 2 [0x00, 0x1a, 0x23, 0x01] (by decide) rfl
  have howner := @hcoded .typeOrMethodDef (by decide) 1 [0x02, 0x06] (by decide) rfl
  interval_cases t
  all_goals first
    | exact absurd (by decide) hlayout
    | simp only [rowSize, rowWidth, schema, Column.width, List.map_cons, List.map_nil,
        List.sum_cons, List.sum_nil, strIdx_eq, guidIdx_eq, blobIdx_eq, simple_eq, hextends,
        hconstant, hattribute, hmarshal, hsecurity, hparent, hsemantics, hmethod, hforwarded,
        htype, hscope, howner, Nat.add_assoc, Nat.add_zero]
      rfl

theorem two_or_four_eq_iff {p q : Prop} [Decidable p] [Decidable q] :
    (if p then 2 else 4) = (if q then 2 else 4) ↔ (p ↔ q) := by
  by_cases hp : p <;> by_cases hq : q <;> simp [hp, hq]

/-- The code looks at TypeDef where the standard has AssemblyRef. -/
theorem implementation_eq_iff :
    (Ctx.ofHeapSizes heapSizes rows).coded 2 [0x26, 0x27, 0x02] = Family.width rows .implementation ↔
      (2 ^ 14 ≤ rows 0x26 ∨ 2 ^ 14 ≤ rows 0x27 ∨ (rows 0x02 < 2 ^ 14 ↔ rows 0x23 < 2 ^ 14)) := by
  have hbits : Family.tagBits .implementation = 2 := by decide
  have htables : Family.tables .implementation = [0x26, 0x23, 0x27] := by decide
  have hcode : (Ctx.ofHeapSizes heapSizes rows).coded 2 [0x26, 0x27, 0x02] =
      if rows 0x26 < 2 ^ 14 ∧ rows 0x27 < 2 ^ 14 ∧ rows 0x02 < 2 ^ 14 then 2 else 4 :=
    if_congr ((coded_lt_iff rows [0x26, 0x27, 0x02] 0).trans (by simp)) rfl rfl
  have hstandard : Family.width rows .implementation =
      if rows 0x26 < 2 ^ 14 ∧ rows 0x23 < 2 ^ 14 ∧ rows 0x27 < 2 ^ 14 then 2 else 4 := by
    rw [Family.width, hbits, htables]
    exact if_congr (by simp) rfl rfl
  rw [hcode, hstandard, two_or_four_eq_iff, ← Nat.not_lt, ← Nat.not_lt]
  tauto

/-- Every table but those six has its own layout; of the six, four never do, and two do while the
tables that the code and the standard look at ask for the same width. -/
theorem rowSize_eq_iff (hmodule : rows 0 = 1) {t : ℕ} (ht : t ≤ 0x2c) :
    rowSize t (.ofHeapSizes heapSizes rows) = .ok (rowWidth heapSizes rows t) ↔
      Faithful rows t := by
  have hswapped {n m : ℕ} (hne : n ≠ m) (hmem : t ∈ [0x21, 0x22, 0x24, 0x25]) :
      (Outcome.ok n : Read ℕ) = .ok m ↔ Faithful rows t :=
    iff_of_false (fun heq ↦ hne (Outcome.ok.inj heq)) (fun h ↦ h.1 hmem)
  have hcolumn {n m : ℕ}
      (hsum : n = m ↔ (Ctx.ofHeapSizes heapSizes rows).coded 2 [0x26, 0x27, 0x02] =
        Family.width rows .implementation) (hmem : t = 0x27 ∨ t = 0x28) :
      (Outcome.ok n : Read ℕ) = .ok m ↔ Faithful rows t := by
    have hnot : t ∉ [0x21, 0x22, 0x24, 0x25] := by
      rcases hmem with rfl | rfl <;> decide
    rw [Outcome.ok.injEq, hsum, implementation_eq_iff]
    exact ⟨fun h ↦ ⟨hnot, fun _ ↦ h⟩, fun h ↦ h.2 hmem⟩
  by_cases hlayout : t ∈ [0x21, 0x22, 0x24, 0x25, 0x27, 0x28]
  · have hcases := hlayout
    simp only [List.mem_cons, List.not_mem_nil, or_false] at hcases
    have hwidth : rowWidth heapSizes rows t = ((schema t).map (Column.width heapSizes rows)).sum :=
      rfl
    rcases hcases with rfl | rfl | rfl | rfl | rfl | rfl
    · exact hswapped (by rw [hwidth]; simp [schema, Column.width]) (by decide)
    · exact hswapped (by rw [hwidth]; simp [schema, Column.width]) (by decide)
    · refine hswapped ?_ (by decide)
      simp only [hwidth, schema, Column.width, List.map_cons, List.map_nil, List.sum_cons,
        List.sum_nil, simple_eq]
      omega
    · refine hswapped ?_ (by decide)
      simp only [hwidth, schema, Column.width, List.map_cons, List.map_nil, List.sum_cons,
        List.sum_nil, simple_eq]
      omega
    · refine hcolumn ?_ (.inl rfl)
      simp only [hwidth, schema, Column.width, List.map_cons, List.map_nil, List.sum_cons,
        List.sum_nil, strIdx_eq]
      omega
    · refine hcolumn ?_ (.inr rfl)
      simp only [hwidth, schema, Column.width, List.map_cons, List.map_nil, List.sum_cons,
        List.sum_nil, strIdx_eq]
      omega
  · rw [rowSize_ok hmodule ht hlayout]
    simp only [List.mem_cons, List.not_mem_nil, or_false, not_or] at hlayout
    refine iff_of_true rfl ⟨?_, fun h ↦ ?_⟩
    · simp [hlayout]
    · rcases h with h | h
      · exact absurd h hlayout.2.2.2.2.1
      · exact absurd h hlayout.2.2.2.2.2

end Agreement

section Starts

variable {heapSizes : UInt8} {rows : ℕ → ℕ} {len first : ℕ} {valid : BitVec 64} {w : Walk}

def sizeOf (c : Ctx) (t : ℕ) : ℕ :=
  match rowSize t c with
  | .ok n => n
  | _ => 0

theorem rowSize_unsupported (c : Ctx) {t : ℕ} (ht : 0x2c < t) :
    rowSize t c = .err (.unsupportedTable t) := by
  unfold rowSize
  dsimp only
  split
  all_goals first
    | rfl
    | exact absurd ht (by decide)

theorem walk_upto {c : Ctx} {n : ℕ}
    (h : (List.range n).foldlM (walkTable len valid c) ⟨fun _ ↦ 0, first⟩ = .ok w) :
    w.cursor = first + startOf (fun u ↦ valid.getLsbD u = true)
        (fun u ↦ sizeOf c u * c.rows u) n ∧
      ∀ t < n, valid.getLsbD t = true → rowSize t c = .ok (sizeOf c t) ∧
        w.offsets t = first + startOf (fun u ↦ valid.getLsbD u = true)
          (fun u ↦ sizeOf c u * c.rows u) t := by
  induction n generalizing w with
  | zero =>
    cases h
    exact ⟨rfl, fun t ht ↦ absurd ht (Nat.not_lt_zero t)⟩
  | succ n ih =>
    rw [List.range_succ, List.foldlM_append, bind_eq_ok] at h
    obtain ⟨w', hbefore, hlast⟩ := h
    obtain ⟨hcursor, hoffsets⟩ := ih hbefore
    rw [List.foldlM_cons, bind_eq_ok] at hlast
    obtain ⟨w'', hlast, hdone⟩ := hlast
    cases hdone
    rw [startOf_succ]
    unfold walkTable at hlast
    split at hlast
    · rename_i habsent
      cases hlast
      refine ⟨by rw [habsent]; exact hcursor, fun t ht hpresent ↦ hoffsets t ?_ hpresent⟩
      refine lt_of_le_of_ne (Nat.lt_succ_iff.mp ht) ?_
      rintro rfl
      rw [habsent] at hpresent
      cases hpresent
    · rename_i hpresent
      rw [Bool.not_eq_false] at hpresent
      simp only [bind_eq_ok, okOr_eq_ok, times_eq_ok] at hlast
      obtain ⟨rs, hsize, size, ⟨-, hmul⟩, cursor, hadd, _, -, hw⟩ := hlast
      cases hw
      have hsizeOf : sizeOf c n = rs := by
        rw [sizeOf, hsize]
      rw [if_pos hpresent, hsizeOf, ← hmul, (checkedAdd_eq_some hadd).1, hcursor, Nat.add_assoc]
      refine ⟨rfl, fun t ht hp ↦ ?_⟩
      by_cases htn : t = n
      · rw [htn, hsizeOf, ← hcursor]
        exact ⟨hsize, Function.update_self _ _ _⟩
      · obtain ⟨hrow, hoffset⟩ := hoffsets t (by omega) hp
        exact ⟨hrow, (Function.update_of_ne htn _ _).trans hoffset⟩

/-- A walk that goes through puts the tables where the standard has them exactly when every table
with another behind it is empty or has its standard width. -/
theorem walk_starts_iff (hmodule : rows 0 = 1)
    (h : walk len valid (.ofHeapSizes heapSizes rows) first = .ok w) :
    (∀ t < 64, valid.getLsbD t = true → w.offsets t = tableStart heapSizes rows valid first t) ↔
      ∀ u t, u < t → t < 64 → valid.getLsbD u = true → valid.getLsbD t = true →
        rows u = 0 ∨ Faithful rows u := by
  obtain ⟨-, hoffsets⟩ := walk_upto h
  have hpresent {t : ℕ} (ht : t < 64) (hp : valid.getLsbD t = true) : t ≤ 0x2c := by
    by_contra hlarge
    have hsize := (hoffsets t ht hp).1
    rw [rowSize_unsupported _ (Nat.lt_of_not_le hlarge)] at hsize
    cases hsize
  have hstarts := @same_starts_iff (fun u ↦ valid.getLsbD u = true) _
    (fun u ↦ sizeOf (.ofHeapSizes heapSizes rows) u * rows u)
    (fun u ↦ rowWidth heapSizes rows u * rows u) 64
  refine Iff.trans ?_ (hstarts.trans ?_)
  · refine forall₃_congr (fun t ht hp ↦ ?_)
    rw [(hoffsets t ht hp).2, tableStart]
    exact Nat.add_left_cancel_iff
  · refine forall₂_congr (fun u t ↦ forall₄_congr (fun hut ht hu _ ↦ ?_))
    have hsize := (hoffsets u (hut.trans ht) hu).1
    rw [← rowSize_eq_iff hmodule (hpresent (hut.trans ht) hu), hsize, Outcome.ok.injEq,
      mul_eq_mul_right_iff, or_comm]

/-- The code's row widths and table starts against the standard's, for every heap-size byte and
every row counts with one Module row. -/
theorem layouts_follow_standard_iff (heapSizes : UInt8) (rows : ℕ → ℕ) (hmodule : rows 0 = 1) :
    (∀ t ≤ 0x2c, rowSize t (.ofHeapSizes heapSizes rows) = .ok (rowWidth heapSizes rows t) ↔
        Faithful rows t) ∧
      ∀ len valid first w, walk len valid (.ofHeapSizes heapSizes rows) first = .ok w →
        ((∀ t < 64, valid.getLsbD t = true →
            w.offsets t = tableStart heapSizes rows valid first t) ↔
          ∀ u t, u < t → t < 64 → valid.getLsbD u = true → valid.getLsbD t = true →
            rows u = 0 ∨ Faithful rows u) :=
  ⟨fun _ ht ↦ rowSize_eq_iff hmodule ht, fun _ _ _ _ h ↦ walk_starts_iff hmodule h⟩

def oneEach (t : ℕ) : ℕ := if t = 0x00 ∨ t = 0x21 ∨ t = 0x23 then 1 else 0

/-- The Module, AssemblyProcessor and AssemblyRef tables behind a header that ends at 100. -/
def oneEachWalk : Walk where
  offsets := Function.update (Function.update (Function.update (fun _ ↦ 0) 0x00 100) 0x21 110) 0x23 122
  cursor := 142

theorem oneEach_layout :
    (rowSize 0x23 (.ofHeapSizes 0 oneEach) = .ok (rowWidth 0 oneEach 0x23) ↔
        Faithful oneEach 0x23) ∧
      ((∀ t < 64, (0xA00000001 : BitVec 64).getLsbD t = true →
          oneEachWalk.offsets t = tableStart 0 oneEach 0xA00000001 100 t) ↔
        ∀ u t, u < t → t < 64 → (0xA00000001 : BitVec 64).getLsbD u = true →
          (0xA00000001 : BitVec 64).getLsbD t = true → oneEach u = 0 ∨ Faithful oneEach u) := by
  have hlayout := layouts_follow_standard_iff 0 oneEach rfl
  exact ⟨hlayout.1 0x23 (by decide), hlayout.2 200 0xA00000001 100 oneEachWalk rfl⟩

theorem processor_too_wide :
    rowSize 0x21 (.ofHeapSizes 0 oneEach) = .ok 12 ∧ rowWidth 0 oneEach 0x21 = 4 ∧
      oneEachWalk.offsets 0x23 = 122 ∧ tableStart 0 oneEach 0xA00000001 100 0x23 = 114 := by
  decide +kernel

end Starts

end Aldivine.Dotnet.Standard
