import Aldivine.Storages.Invariants

namespace Aldivine.Storages.Weight

open Foundation.Execution Foundation.Locate Foundation.Machine Model Invariants

def stackWeight (s : ItemStack) : ℕ := s.weightPerUnit.toNat * s.count.toNat

def slotsWeight (slots : List ItemStack) : ℕ := (slots.map stackWeight).sum

def Within (inv : Inventory) : Prop := slotsWeight inv.slots ≤ inv.weightLimit.toNat

/-- The check of a grant sees the weight the storage is going to hold: its arithmetic does not wrap,
and a stack that is topped up is not heavier per unit than the current definition. -/
def SoundGive (mode : Overflow) (c : GiveCall) : Prop :=
  ∀ item ∈ c.service.registry.lookup c.defId,
    (mode = .wraps →
      slotsWeight (c.service.inventory c.kind c.weightLimit).slots +
        item.weight.toNat * c.count.toNat < 2 ^ 32) ∧
    (item.stackable = true →
      ∀ r ∈ (c.service.inventory c.kind c.weightLimit).find c.defId,
        r.found.weightPerUnit ≤ item.weight)

instance (mode : Overflow) (c : GiveCall) : Decidable (SoundGive mode c) :=
  inferInstanceAs (Decidable (∀ item ∈ c.service.registry.lookup c.defId, _ ∧ _))

variable {mode : Overflow} {inv : Inventory} {item : Item} {defId : String} {count : BitVec 32}

theorem slotsWeight_append (a b : List ItemStack) :
    slotsWeight (a ++ b) = slotsWeight a + slotsWeight b := by
  simp [slotsWeight]

theorem slotsWeight_cons (s : ItemStack) (l : List ItemStack) :
    slotsWeight (s :: l) = stackWeight s + slotsWeight l := by
  simp [slotsWeight]

theorem stackWeight_recount (s : ItemStack) (count : BitVec 32) :
    stackWeight (s.recount count) = s.weightPerUnit.toNat * count.toNat := rfl

theorem slotsWeight_put {slots : List ItemStack} {p : ItemStack → Bool} {r : Located ItemStack}
    (h : locate p slots = some r) (s : ItemStack) :
    slotsWeight (r.put s) + stackWeight r.found = slotsWeight slots + stackWeight s := by
  have hsplit := (locate_split h).1
  rw [hsplit]
  simp only [Located.put, slotsWeight_append, slotsWeight_cons]
  omega

theorem totalWeight_exact {total : BitVec 32} (h : inv.totalWeight mode = some total)
    (hfits : mode = .wraps → slotsWeight inv.slots < 2 ^ 32) :
    total.toNat = slotsWeight inv.slots :=
  sumOf_exact (fun _ _ _ hy hs ↦ word_exact hy hs) h hfits

theorem weight_of_fits (hfits : inv.Fits mode item count)
    (hwrap : mode = .wraps →
      slotsWeight inv.slots + item.weight.toNat * count.toNat < 2 ^ 32) :
    slotsWeight inv.slots + item.weight.toNat * count.toNat ≤ inv.weightLimit.toNat := by
  obtain ⟨⟨adding, total⟩, hw, hle⟩ := hfits
  simp only [Inventory.weigh, Option.mem_def, Option.bind_eq_bind, Option.bind_eq_some_iff] at hw
  obtain ⟨a, ha, c, hc, t, ht, heq⟩ := hw
  cases heq
  have hadding : adding.toNat = item.weight.toNat * count.toNat :=
    word_exact ha (fun hm ↦ by have := hwrap hm; omega)
  have hcurrent : c.toNat = slotsWeight inv.slots :=
    totalWeight_exact hc (fun hm ↦ by have := hwrap hm; omega)
  have htotal : total.toNat = c.toNat + adding.toNat :=
    word_exact ht (fun hm ↦ by have := hwrap hm; omega)
  have hle' : total.toNat ≤ inv.weightLimit.toNat := BitVec.le_def.mp hle
  omega

theorem grant_within {inv' : Inventory} {out : Result} (h : inv.Grant mode item defId count inv' out)
    (hwithin : Within inv)
    (hwrap : mode = .wraps → slotsWeight inv.slots + item.weight.toNat * count.toNat < 2 ^ 32)
    (hlight : item.stackable = true → ∀ r ∈ inv.find defId, r.found.weightPerUnit ≤ item.weight) :
    Within inv' := by
  cases h with
  | weighPanic | overWeight | countPanic | overStack | pushOver => exact hwithin
  | push hfits hnew hmax =>
    have hroom := weight_of_fits hfits hwrap
    simpa [Within, slotsWeight, stackWeight, ItemStack.new] using hroom
  | @stack r newCount hfits hs hf hadd hmax =>
    have hroom := weight_of_fits hfits hwrap
    have hput := slotsWeight_put hf (r.found.recount newCount)
    have hunit := BitVec.le_def.mp (hlight hs r hf)
    have hcount := word_le hadd
    rw [stackWeight_recount, stackWeight] at hput
    calc slotsWeight (r.put (r.found.recount newCount))
      _ ≤ slotsWeight inv.slots + r.found.weightPerUnit.toNat * count.toNat := by
        have hmono : r.found.weightPerUnit.toNat * newCount.toNat ≤
            r.found.weightPerUnit.toNat * (r.found.count.toNat + count.toNat) :=
          Nat.mul_le_mul_left _ hcount
        rw [Nat.mul_add] at hmono
        omega
      _ ≤ slotsWeight inv.slots + item.weight.toNat * count.toNat :=
        Nat.add_le_add_left (Nat.mul_le_mul_right _ hunit) _
      _ ≤ inv.weightLimit.toNat := hroom

theorem slotsWeight_filter (p : ItemStack → Bool) (slots : List ItemStack) :
    slotsWeight (slots.filter p) ≤ slotsWeight slots := by
  induction slots with
  | nil => exact le_rfl
  | cons s slots ih =>
    rw [List.filter_cons, slotsWeight_cons]
    split
    · rw [slotsWeight_cons]
      omega
    · omega

theorem take_within (hwithin : Within inv) : Within (inv.take defId count).1 := by
  rcases inv.take_cases defId count with ⟨he, -⟩ | ⟨r, hf, hle, he⟩
  · rw [he]
    exact hwithin
  · rw [he]
    have hput := slotsWeight_put hf (r.found.recount (r.found.count - count))
    have hcount : (r.found.count - count).toNat ≤ r.found.count.toNat := by
      rw [BitVec.toNat_sub_of_le hle]
      exact Nat.sub_le _ _
    have hstack := Nat.mul_le_mul_left r.found.weightPerUnit.toNat hcount
    rw [stackWeight_recount, stackWeight] at hput
    simp only [Within, Inventory.taken] at hwithin ⊢
    split
    · exact (slotsWeight_filter _ _).trans (by omega)
    · omega

theorem step_within {s : InventoryService} {op : Op} (h : Every Within s)
    (hsound : ∀ c ∈ giveCalls mode s op, SoundGive mode c) : Every Within (step mode s op).1 := by
  refine step_every (fun _ _ ↦ Nat.zero_le _) (fun _ _ _ ↦ take_within) h ?_
  intro c hc item hitem hwithin
  obtain ⟨hwrap, hlight⟩ := hsound c hc item hitem
  exact grant_within Inventory.give_grant hwithin hwrap hlight

/-- When every grant of a run is checked against the weight it really adds, no storage ever holds
more than its limit. -/
theorem within_limits (mode : Overflow) (ops : List Op)
    (hsound : ∀ x ∈ trace (step mode) .new ops, ∀ c ∈ giveCalls mode x.1 x.2, SoundGive mode c) :
    ∀ before, before <+: ops → ∀ kind inv,
      (run (step mode) .new before).storages.lookup kind = some inv →
      slotsWeight inv.slots ≤ inv.weightLimit.toNat ∧ slotsWeight inv.slots ≤ 2 ^ 32 - 1 := by
  rintro before ⟨after, rfl⟩ kind inv hl
  rw [trace_append] at hsound
  have hwithin : Every Within (run (step mode) .new before) := by
    refine invariant_run (I := Every Within)
      (P := fun s op ↦ ∀ c ∈ giveCalls mode s op, SoundGive mode c)
      (fun s op h hop ↦ step_within h hop) (fun kind inv hl ↦ by cases hl) before ?_
    exact fun x hx ↦ hsound x (List.mem_append_left _ hx)
  have hle : slotsWeight inv.slots ≤ inv.weightLimit.toNat := hwithin kind inv hl
  have hlimit := inv.weightLimit.isLt
  omega

def bandage (weight : BitVec 32) : Item := ⟨"ald:bandage", weight, true, 100, false⟩

/-- Four bandages of 100 g move to a vehicle that refuses a fifth. -/
def bandageRun : List Op :=
  [.register (bandage 100), .give (.vehicle 1) 1000 "ald:bandage" 5,
    .transfer (.vehicle 1) (.vehicle 2) 400 "ald:bandage" 4,
    .transfer (.vehicle 1) (.vehicle 2) 400 "ald:bandage" 1]

theorem bandageRun_within :
    (∀ x ∈ trace (step .wraps) .new bandageRun, ∀ c ∈ giveCalls .wraps x.1 x.2, SoundGive .wraps c) ∧
    ∀ kind inv, (run (step .wraps) .new bandageRun).storages.lookup kind = some inv →
      slotsWeight inv.slots ≤ inv.weightLimit.toNat ∧ slotsWeight inv.slots ≤ 2 ^ 32 - 1 := by
  have hsound : ∀ x ∈ trace (step .wraps) .new bandageRun,
      ∀ c ∈ giveCalls .wraps x.1 x.2, SoundGive .wraps c := by decide
  exact ⟨hsound, within_limits .wraps bandageRun hsound bandageRun List.prefix_rfl⟩

/-- The stack keeps its 100 g a piece, the check reckons with the new 1 g. -/
def lighterRun : List Op :=
  [.register (bandage 100), .give (.vehicle 1) 1000 "ald:bandage" 9, .register (bandage 1),
    .give (.vehicle 1) 1000 "ald:bandage" 9]

theorem lighterRun_over_limit :
    (∃ inv, (run (step .wraps) .new lighterRun).storages.lookup (.vehicle 1) = some inv ∧
      slotsWeight inv.slots = 1800 ∧ inv.weightLimit = 1000) ∧
    ∃ inv, (run (step .panics) .new lighterRun).storages.lookup (.vehicle 1) = some inv ∧
      slotsWeight inv.slots = 1800 ∧ inv.weightLimit = 1000 :=
  ⟨⟨_, rfl, by decide, rfl⟩, ⟨_, rfl, by decide, rfl⟩⟩

end Aldivine.Storages.Weight
