import Aldivine.Foundation.Table
import Aldivine.Storages.Invariants

namespace Aldivine.Storages.Transfer

open Foundation.Execution Foundation.Locate Foundation.Machine Foundation.Table
open Model Model.Inventory Invariants

/-- The storage without the units that were taken from the located stack. -/
def remainder (inv : Inventory) (r : Located ItemStack) (count : BitVec 32) : Inventory :=
  { inv with slots := taken r count }

/-- A new grant puts back what was taken: part of a stack is topped up again, and a stack that was
taken whole is exactly the one a fresh grant makes. -/
def RollsBack (mode : Overflow) (inv : Inventory) (item : Item) (defId : String)
    (r : Located ItemStack) (count : BitVec 32) : Prop :=
  if count < r.found.count then
    if item.stackable then
      count = 0 ∨ (r.found.count ≤ item.maxStack ∧ (remainder inv r count).Fits mode item count)
    else count = 0 ∧ ¬(remainder inv r count).Fits mode item count
  else
    (remainder inv r count).Fits mode item count ∧ count ≤ item.maxStack ∧
      r.found = .new item count ∧
      ∀ s ∈ r.rest, s.count ≠ 0 ∧ (item.stackable = true → s.defId ≠ defId)

section Rollback

variable {mode : Overflow} {inv : Inventory} {item : Item} {defId : String} {count : BitVec 32}
  {r : Located ItemStack}

theorem eq_of_cons_perm {x y : ItemStack} {l : List ItemStack} (h : (x :: l).Perm (y :: l)) :
    x = y := by
  have hcount := h.count_eq x
  by_contra hne
  simp [Ne.symm hne] at hcount

theorem put_perm_iff {x y : ItemStack} : (r.put x).Perm (r.put y) ↔ x = y := by
  have hmiddle (z : ItemStack) : (r.put z).Perm (z :: r.rest) := List.perm_middle
  constructor
  · intro h
    exact eq_of_cons_perm ((hmiddle x).symm.trans (h.trans (hmiddle y)))
  · intro heq
    subst heq
    exact List.Perm.refl _

theorem put_found {slots : List ItemStack} {p : ItemStack → Bool} (h : locate p slots = some r) :
    r.put r.found = slots := (locate_split h).1.symm

theorem recount_self {s : ItemStack} : s.recount s.count = s := rfl

theorem recount_eq_iff {s : ItemStack} (hle : count ≤ s.count) :
    s.recount (s.count - count) = s ↔ count = 0 := by
  constructor
  · intro h
    have hcount : s.count - count = s.count := congrArg ItemStack.count h
    bv_omega
  · intro heq
    subst heq
    rw [show s.count - 0 = s.count from BitVec.sub_zero _, recount_self]

theorem find_remainder_part (hf : inv.find defId = some r) (hlt : count < r.found.count) :
    (remainder inv r count).slots = r.put (r.found.recount (r.found.count - count)) ∧
      (remainder inv r count).find defId =
        some ⟨r.before, r.found.recount (r.found.count - count), r.after⟩ := by
  have hne : r.found.count - count ≠ 0 := by bv_omega
  have hslots : (remainder inv r count).slots =
      r.put (r.found.recount (r.found.count - count)) := by
    simp only [remainder, taken, if_neg hne]
  obtain ⟨-, hp, hb⟩ := locate_split hf
  refine ⟨hslots, ?_⟩
  rw [Inventory.find, hslots]
  exact locate_append hb hp

theorem rollback_part {inv' : Inventory} {out : Result} (hf : inv.find defId = some r)
    (hlt : count < r.found.count)
    (h : (remainder inv r count).Grant mode item defId count inv' out) (hout : out ≠ .panic) :
    inv'.slots.Perm inv.slots ↔ RollsBack mode inv item defId r count := by
  obtain ⟨hslots, hfind⟩ := find_remainder_part hf hlt
  have hle := BitVec.le_of_lt hlt
  have hstay : (remainder inv r count).slots.Perm inv.slots ↔ count = 0 := by
    rw [hslots, ← put_found hf, put_perm_iff, recount_eq_iff hle]
  have hsum : ∀ newCount, mode.add (r.found.count - count) count = some newCount →
      newCount = r.found.count := by
    intro newCount hadd
    have hnat : (r.found.count - count).toNat + count.toNat = r.found.count.toNat := by bv_omega
    apply BitVec.eq_of_toNat_eq
    rw [word_exact hadd (fun _ ↦ by omega), hnat]
  -- the remainder is found again, so only an item that does not stack gets a new slot
  have hloose : (item.stackable = true → (remainder inv r count).find defId = none) →
      ¬item.stackable = true := by
    intro hnew hs
    cases hfind.symm.trans (hnew hs)
  rw [RollsBack, if_pos hlt]
  cases h with
  | weighPanic | countPanic => exact absurd rfl hout
  | overWeight hfits =>
    rw [hstay]
    split <;> simp [hfits]
  | overStack hfits hs hf' hadd hmax =>
    obtain rfl := Option.some.inj (hfind.symm.trans hf')
    have hc := hsum _ hadd
    rw [hstay, if_pos hs]
    have hover : ¬r.found.count ≤ item.maxStack := BitVec.not_le.mpr (hc ▸ hmax)
    simp [hover]
  | stack hfits hs hf' hadd hmax =>
    obtain rfl := Option.some.inj (hfind.symm.trans hf')
    have hc := hsum _ hadd
    rw [if_pos hs]
    refine iff_of_true ?_ (.inr ⟨hc ▸ hmax, hfits⟩)
    rw [hc, ← put_found hf]
    exact List.Perm.refl _
  | pushOver hfits hnew hmax =>
    rw [hstay, if_neg (hloose hnew)]
    refine iff_of_false ?_ (fun h ↦ h.2 hfits)
    intro heq
    subst heq
    simp [BitVec.lt_def] at hmax
  | push hfits hnew hmax =>
    rw [if_neg (hloose hnew)]
    refine iff_of_false (fun hperm ↦ ?_) (fun h ↦ h.2 hfits)
    have hlen := hperm.length_eq
    have hsame : (remainder inv r count).slots.length = inv.slots.length := by
      rw [hslots, ← put_found hf]
      simp [Located.put]
    simp only [List.length_append, List.length_singleton] at hlen
    omega

theorem slots_remainder_whole (heq : count = r.found.count) :
    (remainder inv r count).slots = r.rest.filter (fun s ↦ s.count > 0) := by
  subst heq
  have hzero : r.found.count - r.found.count = 0 := BitVec.sub_self _
  simp only [remainder, taken, hzero, if_true, Located.put, Located.rest, List.filter_append,
    ItemStack.recount]
  rfl

theorem length_remainder_whole (hf : inv.find defId = some r) (heq : count = r.found.count) :
    (remainder inv r count).slots.length < inv.slots.length := by
  rw [slots_remainder_whole heq, locate_length hf]
  exact Nat.lt_succ_of_le (List.length_filter_le _ _)

theorem find_remainder_whole {r' : Located ItemStack} (heq : count = r.found.count)
    (hf' : (remainder inv r count).find defId = some r') :
    ∃ s ∈ r.rest, s.defId = defId := by
  have hmem := locate_mem hf'
  rw [slots_remainder_whole heq] at hmem
  exact ⟨r'.found, (List.mem_filter.mp hmem).1, by simpa using (locate_split hf').2.1⟩

theorem filter_nonempty_eq_self {slots : List ItemStack} :
    slots.filter (fun s ↦ s.count > 0) = slots ↔ ∀ s ∈ slots, s.count ≠ 0 := by
  rw [List.filter_eq_self]
  refine forall₂_congr (fun s _ ↦ ?_)
  rw [decide_eq_true_iff]
  exact ⟨fun h ↦ (by bv_omega), fun h ↦ by bv_omega⟩

theorem rollback_whole {inv' : Inventory} {out : Result} (hf : inv.find defId = some r)
    (heq : count = r.found.count)
    (h : (remainder inv r count).Grant mode item defId count inv' out) (hout : out ≠ .panic) :
    inv'.slots.Perm inv.slots ↔ RollsBack mode inv item defId r count := by
  have hslots : (remainder inv r count).slots = _ := slots_remainder_whole heq
  have hshort := length_remainder_whole hf heq
  have hlost : ¬(remainder inv r count).slots.Perm inv.slots :=
    fun hperm ↦ absurd hperm.length_eq hshort.ne
  have hnlt : ¬count < r.found.count := by bv_omega
  rw [RollsBack, if_neg hnlt]
  cases h with
  | weighPanic | countPanic => exact absurd rfl hout
  | overWeight hfits => exact iff_of_false hlost (fun h ↦ hfits h.1)
  | overStack hfits hs hf' hadd hmax =>
    obtain ⟨s, hmem, hid⟩ := find_remainder_whole heq hf'
    exact iff_of_false hlost (fun h ↦ (h.2.2.2 s hmem).2 hs hid)
  | stack hfits hs hf' hadd hmax =>
    obtain ⟨s, hmem, hid⟩ := find_remainder_whole heq hf'
    refine iff_of_false (fun hperm ↦ ?_) (fun h ↦ (h.2.2.2 s hmem).2 hs hid)
    have hlen := hperm.length_eq
    rw [← put_found hf'] at hshort
    simp only [Located.put, List.length_append, List.length_cons] at hlen hshort
    omega
  | pushOver hfits hnew hmax => exact iff_of_false hlost (fun h ↦ BitVec.not_le.mpr hmax h.2.1)
  | push hfits hnew hmax =>
    have hperm : inv.slots.Perm (r.found :: r.rest) := locate_perm hf
    dsimp only
    rw [hslots]
    constructor
    · intro h
      have hlen := (h.trans hperm).length_eq
      simp only [List.length_append, List.length_cons, List.length_nil] at hlen
      have hall : r.rest.filter (fun s ↦ s.count > 0) = r.rest :=
        List.filter_sublist.eq_of_length (by omega)
      have hpos := filter_nonempty_eq_self.mp hall
      rw [hall] at h
      have hcons : (ItemStack.new item count :: r.rest).Perm (r.found :: r.rest) :=
        (List.perm_append_singleton _ _).symm.trans (h.trans hperm)
      refine ⟨hfits, hmax, (eq_of_cons_perm hcons).symm, fun s hs ↦ ⟨hpos s hs, fun hstack ↦ ?_⟩⟩
      have hnone := locate_eq_none.mp (hnew hstack)
      rw [hslots, hall] at hnone
      simpa using hnone s hs
    · intro hparts
      obtain ⟨-, -, hfound, hrest⟩ := hparts
      have hall : r.rest.filter (fun s ↦ s.count > 0) = r.rest :=
        filter_nonempty_eq_self.mpr (fun s hs ↦ (hrest s hs).1)
      rw [hall, ← hfound]
      exact (List.perm_append_singleton _ _).trans hperm.symm

theorem rollback_iff {inv' : Inventory} {out : Result} (hf : inv.find defId = some r)
    (hle : count ≤ r.found.count)
    (h : (remainder inv r count).Grant mode item defId count inv' out) (hout : out ≠ .panic) :
    inv'.slots.Perm inv.slots ↔ RollsBack mode inv item defId r count := by
  by_cases hlt : count < r.found.count
  · exact rollback_part hf hlt h hout
  · exact rollback_whole hf (BitVec.le_antisymm hle (BitVec.not_lt.mp hlt)) h hout

end Rollback

def stackUnits (defId : String) (s : ItemStack) : ℕ :=
  if s.defId = defId then s.count.toNat else 0

def units (defId : String) (slots : List ItemStack) : ℕ := (slots.map (stackUnits defId)).sum

def totalUnits (s : InventoryService) (defId : String) : ℕ :=
  total (fun inv ↦ units defId inv.slots) s.storages

section Units

variable {mode : Overflow} {inv : Inventory} {item : Item} {defId : String} {count : BitVec 32}
  {r : Located ItemStack}

theorem units_append (a b : List ItemStack) :
    units defId (a ++ b) = units defId a + units defId b := by
  simp [units]

theorem units_cons (s : ItemStack) (l : List ItemStack) :
    units defId (s :: l) = stackUnits defId s + units defId l := by
  simp [units]

theorem units_put {slots : List ItemStack} {p : ItemStack → Bool} (h : locate p slots = some r)
    (s : ItemStack) :
    units defId (r.put s) + stackUnits defId r.found = units defId slots + stackUnits defId s := by
  rw [(locate_split h).1]
  simp only [Located.put, units_append, units_cons]
  omega

theorem units_recount (hf : inv.find defId = some r) (newCount : BitVec 32) :
    units defId (r.put (r.found.recount newCount)) + r.found.count.toNat =
      units defId inv.slots + newCount.toNat := by
  have hid : r.found.defId = defId := by simpa using (locate_split hf).2.1
  have hput : units defId (r.put (r.found.recount newCount)) + stackUnits defId r.found =
      units defId inv.slots + stackUnits defId (r.found.recount newCount) :=
    units_put hf (r.found.recount newCount)
  simpa [stackUnits, ItemStack.recount, hid] using hput

theorem units_filter (slots : List ItemStack) :
    units defId (slots.filter (fun s ↦ s.count > 0)) = units defId slots := by
  induction slots with
  | nil => rfl
  | cons s slots ih =>
    rw [List.filter_cons, units_cons]
    split
    · rw [units_cons, ih]
    · have hzero : s.count = 0 := by
        simp only [gt_iff_lt, decide_eq_true_eq] at *
        bv_omega
      rw [ih]
      simp [stackUnits, hzero]

theorem units_remainder (hf : inv.find defId = some r) (hle : count ≤ r.found.count) :
    units defId (remainder inv r count).slots + count.toNat = units defId inv.slots := by
  have hput := units_recount hf (r.found.count - count)
  have hslots : units defId (remainder inv r count).slots =
      units defId (r.put (r.found.recount (r.found.count - count))) := by
    simp only [remainder, taken]
    split
    · exact units_filter _
    · rfl
  have hsub : (r.found.count - count).toNat + count.toNat = r.found.count.toNat := by bv_omega
  omega

/-- A grant adds its units unless the count of the stack it tops up wraps. -/
theorem units_grant {inv' : Inventory} (h : inv.Grant mode item defId count inv' (.ok ()))
    (hid : item.defId = defId) :
    units defId inv'.slots = units defId inv.slots + count.toNat ↔
      (item.stackable = true → ∀ r ∈ inv.find defId,
        r.found.count.toNat + count.toNat < 2 ^ 32) := by
  cases h with
  | push hfits hnew hmax =>
    refine iff_of_true ?_ ?_
    · simp [units, stackUnits, ItemStack.new, hid]
    · intro hs r hr
      rw [hnew hs] at hr
      cases hr
  | @stack r newCount hfits hs hf hadd hmax =>
    have hput := units_recount hf newCount
    have hnew := (word_toNat hadd).1
    constructor
    · intro heq _ r' hr'
      obtain rfl := Option.some.inj (hf.symm.trans hr')
      have hlt := newCount.isLt
      dsimp only at heq
      omega
    · intro hlt
      have := hlt hs r hf
      rw [Nat.mod_eq_of_lt this] at hnew
      dsimp only
      omega

end Units

def Restored (s s' : InventoryService) : Prop :=
  ∀ kind, (slotsOf s' kind).Perm (slotsOf s kind)

/-- No unit of the item is created or lost, and `count` of them went from source to target. -/
def Conserved (s s' : InventoryService) (source target : StorageKind) (defId : String)
    (count : BitVec 32) : Prop :=
  totalUnits s' defId = totalUnits s defId ∧
  if source = target then units defId (slotsOf s' source) = units defId (slotsOf s source)
  else
    units defId (slotsOf s' source) + count.toNat = units defId (slotsOf s source) ∧
    units defId (slotsOf s' target) = units defId (slotsOf s target) + count.toNat

/-- The source can take back what the target refuses, or has nothing to give. -/
def CanRollBack (mode : Overflow) (s : InventoryService) (source : StorageKind)
    (weightLimit : BitVec 32) (defId : String) (count : BitVec 32) : Prop :=
  ∀ r ∈ (s.inventory source weightLimit).find defId, count ≤ r.found.count →
    ∀ item ∈ s.registry.lookup defId,
      RollsBack mode (s.inventory source weightLimit) item defId r count

instance (mode : Overflow) (inv : Inventory) (item : Item) (defId : String)
    (r : Located ItemStack) (count : BitVec 32) :
    Decidable (RollsBack mode inv item defId r count) := by
  unfold RollsBack
  infer_instance

/-- The target when the units have left the source. -/
def receiving (s : InventoryService) (source target : StorageKind) (weightLimit : BitVec 32)
    (r : Located ItemStack) (count : BitVec 32) : Inventory :=
  if target = source then remainder (s.inventory source weightLimit) r count
  else s.inventory target weightLimit

def CountFits (s : InventoryService) (source target : StorageKind) (weightLimit : BitVec 32)
    (defId : String) (count : BitVec 32) : Prop :=
  ∀ r ∈ (s.inventory source weightLimit).find defId,
    ∀ item ∈ s.registry.lookup defId, item.stackable = true →
      ∀ t ∈ (receiving s source target weightLimit r count).find defId,
        t.found.count.toNat + count.toNat < 2 ^ 32

instance (mode : Overflow) (s : InventoryService) (source : StorageKind)
    (weightLimit : BitVec 32) (defId : String) (count : BitVec 32) :
    Decidable (CanRollBack mode s source weightLimit defId count) := by
  unfold CanRollBack
  infer_instance

instance (s : InventoryService) (source target : StorageKind) (weightLimit : BitVec 32)
    (defId : String) (count : BitVec 32) :
    Decidable (CountFits s source target weightLimit defId count) := by
  unfold CountFits
  infer_instance

instance (s s' : InventoryService) (source target : StorageKind) (defId : String)
    (count : BitVec 32) : Decidable (Conserved s s' source target defId count) := by
  unfold Conserved
  infer_instance

section Service

variable {s : InventoryService} {source target : StorageKind} {weightLimit : BitVec 32}
  {defId : String} {count : BitVec 32} {mode : Overflow} {inv : Inventory}

theorem totalUnits_put (kind : StorageKind) :
    totalUnits (s.put kind inv) defId + units defId (slotsOf s kind) =
      totalUnits s defId + units defId inv.slots := by
  cases hl : s.storages.lookup kind with
  | none =>
    have hzero : units defId (slotsOf s kind) = 0 := by simp [slotsOf, hl, units]
    have hnew := total_insert_new (fun inv ↦ units defId inv.slots) inv hl
    simp only [totalUnits, InventoryService.put] at hnew ⊢
    omega
  | some old =>
    have hold : slotsOf s kind = old.slots := by simp [slotsOf, hl]
    rw [hold]
    exact total_insert_old (fun inv ↦ units defId inv.slots) inv hl

theorem totalUnits_storage : totalUnits (s.storage target weightLimit) defId =
    totalUnits s defId := by
  have hput : totalUnits (s.storage target weightLimit) defId + units defId (slotsOf s target) =
      totalUnits s defId + units defId (s.inventory target weightLimit).slots :=
    totalUnits_put target
  rw [slots_inventory] at hput
  omega

theorem give_granted {item : Item} {kind : StorageKind} {s' : InventoryService} {out : Result}
    (hl : s.registry.lookup defId = some item)
    (h : s.give mode kind weightLimit defId count = (s', out)) :
    ∃ inv', s' = s.put kind inv' ∧
      (s.inventory kind weightLimit).Grant mode item defId count inv' out := by
  simp only [InventoryService.give, hl, Prod.mk.injEq] at h
  obtain ⟨rfl, rfl⟩ := h
  exact ⟨_, rfl, give_grant⟩

theorem lookup_of_find {kind : StorageKind} {r : Located ItemStack} (hs : WellFormed s)
    (hf : (s.inventory kind weightLimit).find defId = some r) :
    ∃ item, s.registry.lookup defId = some item ∧ item.defId = defId := by
  have hid : r.found.defId = defId := by simpa using (locate_split hf).2.1
  have hnamed : Named (· ∈ s.registry) (s.inventory kind weightLimit) :=
    inventory_every (fun _ _ _ hst ↦ by cases hst) hs.defined
  have hmem : defId ∈ s.registry := hid ▸ hnamed r.found (locate_mem hf)
  obtain ⟨item, hl⟩ := Option.isSome_iff_exists.mp (AList.lookup_isSome.mpr hmem)
  exact ⟨item, hl, hs.keyed defId item hl⟩

theorem slotsOf_storage (k : StorageKind) :
    slotsOf (s.storage target weightLimit) k = slotsOf s k :=
  slotsOf_put_same k slots_inventory

def half (s : InventoryService) (source target : StorageKind) (weightLimit : BitVec 32)
    (r : Located ItemStack) (count : BitVec 32) : InventoryService :=
  (s.storage target weightLimit).put source (remainder (s.inventory source weightLimit) r count)

theorem take_short {s₂ : InventoryService} {e : InventoryError}
    (h : (s.storage target weightLimit).take source weightLimit defId count = (s₂, .err e)) :
    (∀ r, (s.inventory source weightLimit).find defId = some r → r.found.count < count) ∧
      ∀ k, slotsOf s₂ k = slotsOf s k := by
  simp only [InventoryService.take, inventory_storage, Prod.mk.injEq] at h
  obtain ⟨rfl, hout⟩ := h
  rcases (s.inventory source weightLimit).take_cases defId count with ⟨he, hlt⟩ | ⟨r, -, -, he⟩
  · refine ⟨hlt, fun k ↦ ?_⟩
    rw [he, slotsOf_put_same k (by rw [slots_inventory, slotsOf_storage]), slotsOf_storage]
  · rw [he] at hout
    cases hout

theorem take_half {s₂ : InventoryService}
    (h : (s.storage target weightLimit).take source weightLimit defId count = (s₂, .ok ())) :
    ∃ r, (s.inventory source weightLimit).find defId = some r ∧ count ≤ r.found.count ∧
      s₂ = half s source target weightLimit r count := by
  simp only [InventoryService.take, inventory_storage, Prod.mk.injEq] at h
  obtain ⟨rfl, hout⟩ := h
  rcases (s.inventory source weightLimit).take_cases defId count with ⟨he, -⟩ | ⟨r, hf, hle, he⟩
  · rw [he] at hout
    cases hout
  · exact ⟨r, hf, hle, by rw [he]; rfl⟩

theorem inventory_half (r : Located ItemStack) :
    (half s source target weightLimit r count).inventory target weightLimit =
      receiving s source target weightLimit r count := by
  unfold half receiving
  split
  · rename_i heq
    rw [heq]
    exact inventory_put_self
  · rw [inventory_put_ne ‹_›, inventory_storage]

theorem totalUnits_half {r : Located ItemStack}
    (hf : (s.inventory source weightLimit).find defId = some r) (hle : count ≤ r.found.count) :
    totalUnits (half s source target weightLimit r count) defId + count.toNat =
      totalUnits s defId := by
  have hput : totalUnits (half s source target weightLimit r count) defId +
      units defId (slotsOf (s.storage target weightLimit) source) =
      totalUnits (s.storage target weightLimit) defId +
      units defId (remainder (s.inventory source weightLimit) r count).slots :=
    totalUnits_put source
  have hrem := units_remainder hf hle
  rw [slotsOf_storage, totalUnits_storage] at hput
  rw [slots_inventory] at hrem
  omega

/-- A granted transfer moves the units exactly when the target adds them all. -/
theorem conserved_half {r : Located ItemStack} {inv' : Inventory}
    (hf : (s.inventory source weightLimit).find defId = some r) (hle : count ≤ r.found.count) :
    Conserved s ((half s source target weightLimit r count).put target inv') source target defId
        count ↔
      units defId inv'.slots =
        units defId (receiving s source target weightLimit r count).slots + count.toNat := by
  have htotal : totalUnits (half s source target weightLimit r count) defId + count.toNat =
      totalUnits s defId := totalUnits_half hf hle
  have hput : totalUnits ((half s source target weightLimit r count).put target inv') defId +
      units defId (slotsOf (half s source target weightLimit r count) target) =
      totalUnits (half s source target weightLimit r count) defId + units defId inv'.slots :=
    totalUnits_put target
  have hreceiving : slotsOf (half s source target weightLimit r count) target =
      (receiving s source target weightLimit r count).slots := by
    rw [← inventory_half, slots_inventory]
  have hrem := units_remainder hf hle
  rw [slots_inventory] at hrem
  rw [hreceiving] at hput
  unfold Conserved
  rw [slotsOf_put_self]
  split
  · rename_i heq
    subst heq
    have hrec : (receiving s source source weightLimit r count).slots =
        (remainder (s.inventory source weightLimit) r count).slots := by rw [receiving, if_pos rfl]
    rw [hrec] at hput ⊢
    rw [slotsOf_put_self]
    omega
  · rename_i hne
    have hrec : (receiving s source target weightLimit r count).slots = slotsOf s target := by
      rw [receiving, if_neg (Ne.symm hne), slots_inventory]
    have hsource : slotsOf ((half s source target weightLimit r count).put target inv') source =
        (remainder (s.inventory source weightLimit) r count).slots := by
      rw [slotsOf_put_ne hne, half, slotsOf_put_self]
    rw [hrec] at hput ⊢
    rw [hsource]
    omega

theorem restored_half {r : Located ItemStack} {inv' : Inventory} :
    Restored s (((half s source target weightLimit r count).put target
        (receiving s source target weightLimit r count)).put source inv') ↔
      inv'.slots.Perm (s.inventory source weightLimit).slots := by
  rw [slots_inventory]
  constructor
  · intro h
    have hsource := h source
    rwa [slotsOf_put_self] at hsource
  · intro h k
    by_cases hk : k = source
    · subst hk
      rwa [slotsOf_put_self]
    · rw [slotsOf_put_ne hk, slotsOf_put_same k (by rw [← inventory_half, slots_inventory]), half,
        slotsOf_put_ne hk, slotsOf_storage]

theorem inventory_refused (r : Located ItemStack) :
    ((half s source target weightLimit r count).put target
        (receiving s source target weightLimit r count)).inventory source weightLimit =
      remainder (s.inventory source weightLimit) r count := by
  by_cases hk : source = target
  · subst hk
    rw [inventory_put_self, receiving, if_pos rfl]
  · rw [inventory_put_ne hk, half, inventory_put_self]

theorem grant_err {item : Item} {inv' : Inventory} {e : InventoryError}
    (h : inv.Grant mode item defId count inv' (.err e)) : inv' = inv := by
  cases h <;> rfl

theorem canRollBack_iff {r : Located ItemStack} {item : Item}
    (hf : (s.inventory source weightLimit).find defId = some r) (hle : count ≤ r.found.count)
    (hl : s.registry.lookup defId = some item) :
    CanRollBack mode s source weightLimit defId count ↔
      RollsBack mode (s.inventory source weightLimit) item defId r count := by
  constructor
  · exact fun h ↦ h r hf hle item hl
  · intro h r' hr' _ item' hitem'
    obtain rfl := Option.some.inj (hf.symm.trans hr')
    obtain rfl := Option.some.inj (hl.symm.trans hitem')
    exact h

theorem countFits_iff {r : Located ItemStack} {item : Item}
    (hf : (s.inventory source weightLimit).find defId = some r)
    (hl : s.registry.lookup defId = some item) :
    CountFits s source target weightLimit defId count ↔
      (item.stackable = true →
        ∀ t ∈ (receiving s source target weightLimit r count).find defId,
          t.found.count.toNat + count.toNat < 2 ^ 32) := by
  constructor
  · exact fun h ↦ h r hf item hl
  · intro h r' hr' item' hitem'
    obtain rfl := Option.some.inj (hf.symm.trans hr')
    obtain rfl := Option.some.inj (hl.symm.trans hitem')
    exact h

theorem granted_conserved {s₂ s₃ : InventoryService} (hwf : WellFormed s)
    (htake : (s.storage target weightLimit).take source weightLimit defId count = (s₂, .ok ()))
    (hgive : s₂.give mode target weightLimit defId count = (s₃, .ok ())) :
    Conserved s s₃ source target defId count ↔
      CountFits s source target weightLimit defId count := by
  obtain ⟨r, hf, hle, rfl⟩ := take_half htake
  obtain ⟨item, hl, hid⟩ := lookup_of_find hwf hf
  have hhalf : (half s source target weightLimit r count).registry.lookup defId = some item := hl
  obtain ⟨inv', rfl, hgrant⟩ := give_granted hhalf hgive
  rw [inventory_half] at hgrant
  rw [conserved_half hf hle, units_grant hgrant hid, countFits_iff hf hl]

theorem refused_restored {s₂ s₃ s₄ : InventoryService} {e : InventoryError} {out : Result}
    (hwf : WellFormed s)
    (htake : (s.storage target weightLimit).take source weightLimit defId count = (s₂, .ok ()))
    (hgive : s₂.give mode target weightLimit defId count = (s₃, .err e))
    (hback : s₃.give mode source weightLimit defId count = (s₄, out)) (hout : out ≠ .panic) :
    Restored s s₄ ↔ CanRollBack mode s source weightLimit defId count := by
  obtain ⟨r, hf, hle, rfl⟩ := take_half htake
  obtain ⟨item, hl, hid⟩ := lookup_of_find hwf hf
  have hhalf : (half s source target weightLimit r count).registry.lookup defId = some item := hl
  obtain ⟨inv₁, rfl, hgrant⟩ := give_granted hhalf hgive
  rw [inventory_half] at hgrant
  obtain rfl := grant_err hgrant
  obtain ⟨inv₂, rfl, hgrant'⟩ := give_granted (s := (half s source target weightLimit r count).put
    target (receiving s source target weightLimit r count)) hl hback
  rw [inventory_refused] at hgrant'
  rw [restored_half, rollback_iff hf hle hgrant' hout, canRollBack_iff hf hle hl]

end Service

/-- In every reachable state a failed transfer leaves all stacks as they were exactly when the
source can take its units back, and a successful one moves `count` units, creating and losing none,
exactly when no count wraps at the target. -/
theorem transfer_exact (mode : Overflow) (ops : List Op) (source target : StorageKind)
    (weightLimit : BitVec 32) (defId : String) (count : BitVec 32) (s s' : InventoryService)
    (out : Result) (hs : s = run (step mode) .new ops)
    (ht : s.transfer mode source target weightLimit defId count = (s', out)) :
    (∀ e, out = .err e →
      (Restored s s' ↔ CanRollBack mode s source weightLimit defId count)) ∧
    (out = .ok () →
      (Conserved s s' source target defId count ↔
        CountFits s source target weightLimit defId count)) := by
  have hwf : WellFormed s := hs ▸ wellFormed_run mode ops
  have h := transfer_transferred mode s source target weightLimit defId count
  rw [ht] at h
  dsimp only at h
  generalize giveCalls mode s (.transfer source target weightLimit defId count) = calls at h
  cases h with
  | tooDeep hdeep =>
    have hdepth : (s.inventory target weightLimit).depth = 0 :=
      inventory_every (fun _ _ ↦ rfl) hwf.shallow
    rw [inventory_storage, hdepth] at hdeep
    exact absurd hdeep (by decide)
  | short htake =>
    obtain ⟨hshort, hsame⟩ := take_short htake
    refine ⟨fun _ _ ↦ iff_of_true (fun k ↦ ?_) (fun r hr hle ↦ ?_), fun h ↦ by cases h⟩
    · rw [hsame k]
    · exact absurd (hshort r hr) (BitVec.not_lt.mpr hle)
  | granted htake hgive hout =>
    refine ⟨fun e he ↦ absurd he (hout e), fun hok ↦ ?_⟩
    rw [hok] at hgive
    exact granted_conserved hwf htake hgive
  | refused htake hgive hback =>
    split
    · exact ⟨(fun e he ↦ by cases he), (fun hok ↦ by cases hok)⟩
    · refine ⟨fun e he ↦ ?_, fun hok ↦ by cases hok⟩
      exact refused_restored hwf htake hgive hback ‹_›

def bandages : List Op :=
  [.register ⟨"ald:bandage", 100, true, 100, false⟩, .give (.vehicle 1) 1000 "ald:bandage" 5]

/-- The second vehicle carries one bandage, so two of them go back to the first. -/
theorem bandages_transfer :
    (∃ s' e, (run (step .wraps) .new bandages).transfer .wraps (.vehicle 1) (.vehicle 2) 100
        "ald:bandage" 2 = (s', .err e) ∧ Restored (run (step .wraps) .new bandages) s') ∧
    ∃ s', (run (step .wraps) .new bandages).transfer .wraps (.vehicle 1) (.vehicle 2) 100
        "ald:bandage" 1 = (s', .ok ()) ∧
      Conserved (run (step .wraps) .new bandages) s' (.vehicle 1) (.vehicle 2) "ald:bandage" 1 := by
  constructor
  · refine ⟨_, _, rfl, ?_⟩
    exact ((transfer_exact .wraps bandages (.vehicle 1) (.vehicle 2) 100 "ald:bandage" 2 _ _ _
      rfl rfl).1 _ rfl).mpr (by decide)
  · refine ⟨_, rfl, ?_⟩
    exact ((transfer_exact .wraps bandages (.vehicle 1) (.vehicle 2) 100 "ald:bandage" 1 _ _ _
      rfl rfl).2 rfl).mpr (by decide)

def axes : List Op :=
  [.register ⟨"ald:axe", 100, false, 10, false⟩, .give (.vehicle 1) 1000 "ald:axe" 3]

def feathers : List Op :=
  [.register ⟨"ald:feather", 0, true, 0xFFFFFFFF, false⟩,
    .give (.vehicle 1) 1000 "ald:feather" 1, .give (.vehicle 2) 1000 "ald:feather" 0xFFFFFFFF]

/-- Three axes come back from a full vehicle as two and one; a feather makes `u32::MAX` others
vanish. -/
theorem axes_split_feathers_lost :
    (∃ s' e, (run (step .wraps) .new axes).transfer .wraps (.vehicle 1) (.vehicle 2) 0
        "ald:axe" 1 = (s', .err e) ∧ ¬Restored (run (step .wraps) .new axes) s') ∧
    (∃ s' e, (run (step .panics) .new axes).transfer .panics (.vehicle 1) (.vehicle 2) 0
        "ald:axe" 1 = (s', .err e) ∧ ¬Restored (run (step .panics) .new axes) s') ∧
    ∃ s', (run (step .wraps) .new feathers).transfer .wraps (.vehicle 1) (.vehicle 2) 1000
        "ald:feather" 1 = (s', .ok ()) ∧
      ¬Conserved (run (step .wraps) .new feathers) s' (.vehicle 1) (.vehicle 2)
        "ald:feather" 1 := by
  refine ⟨⟨_, _, rfl, fun h ↦ ?_⟩, ⟨_, _, rfl, fun h ↦ ?_⟩, ⟨_, rfl, by decide⟩⟩
  · exact absurd (h (.vehicle 1)) (by decide)
  · exact absurd (h (.vehicle 1)) (by decide)

end Aldivine.Storages.Transfer
