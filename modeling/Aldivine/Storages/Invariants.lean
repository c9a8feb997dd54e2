import Aldivine.Foundation.Execution
import Aldivine.Storages.Model

namespace Aldivine.Storages.Invariants

open Foundation.Execution Foundation.Locate Foundation.Machine Model

structure GiveCall where
  service : InventoryService
  kind : StorageKind
  weightLimit : BitVec 32
  defId : String
  count : BitVec 32

/-- The grants one operation makes: its own, or those inside a transfer. -/
def giveCalls (mode : Overflow) (s : InventoryService) : Op → List GiveCall
  | .give kind weightLimit defId count => [⟨s, kind, weightLimit, defId, count⟩]
  | .transfer source target weightLimit defId count =>
    let s₁ := s.storage target weightLimit
    if (s₁.inventory target weightLimit).depth ≥ maxNesting then []
    else
      match s₁.take source weightLimit defId count with
      | (s₂, .ok ()) =>
        ⟨s₂, target, weightLimit, defId, count⟩ ::
          match s₂.give mode target weightLimit defId count with
          | (s₃, .err _) => [⟨s₃, source, weightLimit, defId, count⟩]
          | _ => []
      | _ => []
  | _ => []

inductive Transferred (mode : Overflow) (s : InventoryService) (source target : StorageKind)
    (weightLimit : BitVec 32) (defId : String) (count : BitVec 32) :
    List GiveCall → InventoryService → Result → Prop
  | tooDeep (hdeep : ((s.storage target weightLimit).inventory target weightLimit).depth ≥
        maxNesting) :
      Transferred mode s source target weightLimit defId count [] (s.storage target weightLimit)
        (.err .nestingTooDeep)
  | short {s₂ : InventoryService} {e : InventoryError}
      (htake : (s.storage target weightLimit).take source weightLimit defId count = (s₂, .err e)) :
      Transferred mode s source target weightLimit defId count [] s₂ (.err e)
  | granted {s₂ s₃ : InventoryService} {out : Result}
      (htake : (s.storage target weightLimit).take source weightLimit defId count = (s₂, .ok ()))
      (hgive : s₂.give mode target weightLimit defId count = (s₃, out)) (hout : ∀ e, out ≠ .err e) :
      Transferred mode s source target weightLimit defId count
        [⟨s₂, target, weightLimit, defId, count⟩] s₃ out
  | refused {s₂ s₃ s₄ : InventoryService} {e : InventoryError} {out : Result}
      (htake : (s.storage target weightLimit).take source weightLimit defId count = (s₂, .ok ()))
      (hgive : s₂.give mode target weightLimit defId count = (s₃, .err e))
      (hback : s₃.give mode source weightLimit defId count = (s₄, out)) :
      Transferred mode s source target weightLimit defId count
        [⟨s₂, target, weightLimit, defId, count⟩, ⟨s₃, source, weightLimit, defId, count⟩] s₄
        (if out = .panic then .panic else .err e)

theorem take_ne_panic {s : InventoryService} {kind : StorageKind} {weightLimit : BitVec 32}
    {defId : String} {count : BitVec 32} :
    (s.take kind weightLimit defId count).2 ≠ .panic := by
  simp only [InventoryService.take]
  rcases (s.inventory kind weightLimit).take_cases defId count with ⟨he, -⟩ | ⟨r, -, -, he⟩ <;>
    rw [he] <;> exact fun h ↦ by cases h

theorem transfer_transferred (mode : Overflow) (s : InventoryService)
    (source target : StorageKind) (weightLimit : BitVec 32) (defId : String) (count : BitVec 32) :
    Transferred mode s source target weightLimit defId count
      (giveCalls mode s (.transfer source target weightLimit defId count))
      (s.transfer mode source target weightLimit defId count).1
      (s.transfer mode source target weightLimit defId count).2 := by
  have hpanic : ((s.storage target weightLimit).take source weightLimit defId count).2 ≠ .panic :=
    take_ne_panic
  simp only [giveCalls, InventoryService.transfer]
  split
  · exact .tooDeep ‹_›
  cases htake : (s.storage target weightLimit).take source weightLimit defId count with
  | mk s₂ out₂ =>
    rw [htake] at hpanic
    cases out₂ with
    | panic => exact absurd rfl hpanic
    | err e => exact .short htake
    | ok =>
      dsimp only
      cases hgive : s₂.give mode target weightLimit defId count with
      | mk s₃ out₃ =>
        cases out₃ with
        | ok => exact .granted htake hgive (fun e h ↦ by cases h)
        | panic => exact .granted htake hgive (fun e h ↦ by cases h)
        | err e =>
          dsimp only
          cases hback : s₃.give mode source weightLimit defId count with
          | mk s₄ out₄ => cases out₄ <;> exact .refused htake hgive hback

def Every (P : Inventory → Prop) (s : InventoryService) : Prop :=
  ∀ kind inv, s.storages.lookup kind = some inv → P inv

variable {s : InventoryService} {kind : StorageKind} {weightLimit : BitVec 32} {inv : Inventory}
  {mode : Overflow} {P : Inventory → Prop}

theorem lookup_put_self : (s.put kind inv).storages.lookup kind = some inv :=
  AList.lookup_insert _

theorem lookup_put_ne {k : StorageKind} (hk : k ≠ kind) :
    (s.put kind inv).storages.lookup k = s.storages.lookup k :=
  AList.lookup_insert_ne hk

theorem put_every (h : Every P s) (hinv : P inv) : Every P (s.put kind inv) := by
  intro k i hl
  by_cases hk : k = kind
  · subst hk
    rw [lookup_put_self] at hl
    cases hl
    exact hinv
  · rw [lookup_put_ne hk] at hl
    exact h k i hl

def slotsOf (s : InventoryService) (kind : StorageKind) : List ItemStack :=
  ((s.storages.lookup kind).map (·.slots)).getD []

theorem slots_inventory : (s.inventory kind weightLimit).slots = slotsOf s kind := by
  unfold InventoryService.inventory slotsOf
  cases s.storages.lookup kind <;> rfl

theorem slotsOf_put_self : slotsOf (s.put kind inv) kind = inv.slots := by
  rw [slotsOf, lookup_put_self]
  rfl

theorem slotsOf_put_ne {k : StorageKind} (hk : k ≠ kind) :
    slotsOf (s.put kind inv) k = slotsOf s k := by
  rw [slotsOf, lookup_put_ne hk, slotsOf]

theorem inventory_put_self : (s.put kind inv).inventory kind weightLimit = inv := by
  rw [InventoryService.inventory, lookup_put_self]
  rfl

theorem inventory_put_ne {k : StorageKind} (hk : k ≠ kind) :
    (s.put kind inv).inventory k weightLimit = s.inventory k weightLimit := by
  rw [InventoryService.inventory, lookup_put_ne hk, InventoryService.inventory]

theorem inventory_storage (k : StorageKind) :
    (s.storage kind weightLimit).inventory k weightLimit = s.inventory k weightLimit := by
  by_cases hk : k = kind
  · subst hk
    exact inventory_put_self
  · exact inventory_put_ne hk

theorem slotsOf_put_same (k : StorageKind) (hinv : inv.slots = slotsOf s kind) :
    slotsOf (s.put kind inv) k = slotsOf s k := by
  by_cases hk : k = kind
  · subst hk
    rw [slotsOf_put_self, hinv]
  · exact slotsOf_put_ne hk

section Step

variable (hempty : ∀ kind weightLimit, P ⟨kind, weightLimit, [], 0⟩)
  (htake : ∀ inv defId count, P inv → P (Inventory.take inv defId count).1)

include hempty

theorem inventory_every (h : Every P s) : P (s.inventory kind weightLimit) := by
  unfold InventoryService.inventory
  cases hl : s.storages.lookup kind with
  | none => exact hempty kind weightLimit
  | some inv => exact h kind inv hl

theorem give_every (h : Every P s) {defId : String} {count : BitVec 32}
    (hgive : ∀ item ∈ s.registry.lookup defId, P (s.inventory kind weightLimit) →
      P ((s.inventory kind weightLimit).give mode item defId count).1) :
    Every P (s.give mode kind weightLimit defId count).1 := by
  unfold InventoryService.give
  cases hr : s.registry.lookup defId with
  | none => exact h
  | some item => exact put_every h (hgive item hr (inventory_every hempty h))

include htake

theorem take_every (h : Every P s) {defId : String} {count : BitVec 32} :
    Every P (s.take kind weightLimit defId count).1 :=
  put_every h (htake _ _ _ (inventory_every hempty h))

/-- A property of single storages survives a call when `take` keeps it and every grant the call
makes keeps it. -/
theorem step_every {op : Op} (h : Every P s)
    (hgive : ∀ c ∈ giveCalls mode s op, ∀ item ∈ c.service.registry.lookup c.defId,
      P (c.service.inventory c.kind c.weightLimit) →
      P ((c.service.inventory c.kind c.weightLimit).give mode item c.defId c.count).1) :
    Every P (step mode s op).1 := by
  cases op with
  | register item => exact h
  | storage kind weightLimit => exact put_every h (inventory_every hempty h)
  | give kind weightLimit defId count =>
    exact give_every hempty h (hgive _ List.mem_cons_self)
  | take kind weightLimit defId count => exact take_every hempty htake h
  | transfer source target weightLimit defId count =>
    have h₁ : Every P (s.storage target weightLimit) := put_every h (inventory_every hempty h)
    have h₂ : Every P ((s.storage target weightLimit).take source weightLimit defId count).1 :=
      take_every hempty htake h₁
    have ht := transfer_transferred mode s source target weightLimit defId count
    simp only [step]
    generalize giveCalls mode s (.transfer source target weightLimit defId count) = calls at ht hgive
    generalize s.transfer mode source target weightLimit defId count = res at ht
    obtain ⟨s', out⟩ := res
    cases ht with
    | tooDeep => exact h₁
    | short hout =>
      rw [hout] at h₂
      exact h₂
    | granted hout hres =>
      rw [hout] at h₂
      have h₃ := give_every hempty h₂ (hgive _ List.mem_cons_self)
      dsimp only at h₃
      rw [hres] at h₃
      exact h₃
    | refused hout hres hback =>
      rw [hout] at h₂
      have h₃ := give_every hempty h₂ (hgive _ List.mem_cons_self)
      dsimp only at h₃
      rw [hres] at h₃
      have h₄ := give_every hempty h₃ (hgive _ (List.mem_cons_of_mem _ List.mem_cons_self))
      dsimp only at h₄
      rw [hback] at h₄
      exact h₄

end Step

section Reachable

variable {defId : String} {count : BitVec 32}

theorem give_registry : (s.give mode kind weightLimit defId count).1.registry = s.registry := by
  unfold InventoryService.give
  cases s.registry.lookup defId <;> rfl

theorem transfer_registry {source target : StorageKind} {calls : List GiveCall}
    {s' : InventoryService} {out : Result}
    (h : Transferred mode s source target weightLimit defId count calls s' out) :
    s'.registry = s.registry ∧ ∀ c ∈ calls, c.service.registry = s.registry := by
  have htake : ((s.storage target weightLimit).take source weightLimit defId count).1.registry =
      s.registry := rfl
  have hgiven {s₂ s₃ : InventoryService} {kind : StorageKind} {out : Result}
      (hgive : s₂.give mode kind weightLimit defId count = (s₃, out)) :
      s₃.registry = s₂.registry := by
    have hreg : (s₂.give mode kind weightLimit defId count).1.registry = s₂.registry :=
      give_registry
    rwa [hgive] at hreg
  cases h with
  | tooDeep => exact ⟨rfl, by simp⟩
  | short hout =>
    rw [hout] at htake
    exact ⟨htake, by simp⟩
  | granted hout hres =>
    rw [hout] at htake
    exact ⟨(hgiven hres).trans htake, by simpa using htake⟩
  | refused hout hres hback =>
    rw [hout] at htake
    have h₃ := (hgiven hres).trans htake
    exact ⟨(hgiven hback).trans h₃, by simpa using ⟨htake, h₃⟩⟩

theorem giveCalls_registry {op : Op} {c : GiveCall} (hc : c ∈ giveCalls mode s op) :
    c.service.registry = s.registry := by
  cases op with
  | register | storage | take => cases hc
  | give => rw [List.mem_singleton.mp hc]
  | transfer source target weightLimit defId count =>
    exact (transfer_registry (transfer_transferred _ _ _ _ _ _ _)).2 c hc

theorem step_registry {op : Op} (hop : ∀ item, op ≠ .register item) :
    (step mode s op).1.registry = s.registry := by
  cases op with
  | register item => exact absurd rfl (hop item)
  | storage | take => rfl
  | give => exact give_registry
  | transfer source target weightLimit defId count =>
    exact (transfer_registry (transfer_transferred _ _ _ _ _ _ _)).1

theorem mem_put {slots : List ItemStack} {p : ItemStack → Bool} {r : Located ItemStack}
    (hf : locate p slots = some r) {st x : ItemStack} (h : st ∈ r.put x) : st = x ∨ st ∈ slots := by
  rw [(locate_split hf).1]
  simp only [Located.put, List.mem_append, List.mem_cons] at h ⊢
  tauto

def Named (p : String → Prop) (inv : Inventory) : Prop := ∀ st ∈ inv.slots, p st.defId

theorem take_named {p : String → Prop} (h : Named p inv) : Named p (inv.take defId count).1 := by
  rcases inv.take_cases defId count with ⟨he, -⟩ | ⟨r, hf, -, he⟩
  · rw [he]
    exact h
  · rw [he]
    intro st hst
    have hput : st ∈ r.put (r.found.recount (r.found.count - count)) := by
      simp only [Inventory.taken] at hst
      split at hst
      · exact (List.mem_filter.mp hst).1
      · exact hst
    rcases mem_put hf hput with rfl | hst
    · exact h r.found (locate_mem hf)
    · exact h st hst

theorem grant_named {p : String → Prop} {item : Item} {inv' : Inventory} {out : Result}
    (h : Named p inv) (hitem : p item.defId) (hg : inv.Grant mode item defId count inv' out) :
    Named p inv' := by
  cases hg with
  | weighPanic | overWeight | countPanic | overStack | pushOver => exact h
  | @stack r newCount hfits hs hf hadd hmax =>
    intro st hst
    rcases mem_put hf hst with rfl | hst
    · exact h r.found (locate_mem hf)
    · exact h st hst
  | push hfits hnew hmax =>
    intro st hst
    rcases List.mem_append.mp hst with hst | hst
    · exact h st hst
    · rw [List.mem_singleton.mp hst]
      exact hitem

theorem take_depth : (inv.take defId count).1.depth = inv.depth := by
  rcases inv.take_cases defId count with ⟨he, -⟩ | ⟨r, -, -, he⟩ <;> rw [he]

theorem grant_depth {item : Item} {inv' : Inventory} {out : Result}
    (hg : inv.Grant mode item defId count inv' out) : inv'.depth = inv.depth := by
  cases hg <;> rfl

/-- What holds in every run: nothing is nested, definitions are kept under their own id, and every
stack has a definition. -/
structure WellFormed (s : InventoryService) : Prop where
  shallow : Every (·.depth = 0) s
  keyed : ∀ defId item, s.registry.lookup defId = some item → item.defId = defId
  defined : Every (Named (· ∈ s.registry)) s

theorem wellFormed_new : WellFormed .new where
  shallow _ _ hl := by cases hl
  keyed _ _ hl := by cases hl
  defined _ _ hl := by cases hl

theorem wellFormed_register (h : WellFormed s) (item : Item) : WellFormed (s.register item) where
  shallow := h.shallow
  keyed defId item' hl := by
    by_cases hd : defId = item.defId
    · subst hd
      rw [InventoryService.register, AList.lookup_insert] at hl
      cases hl
      rfl
    · rw [InventoryService.register, AList.lookup_insert_ne hd] at hl
      exact h.keyed defId item' hl
  defined kind inv hl st hst := (AList.mem_insert _).mpr (.inr (h.defined kind inv hl st hst))

theorem wellFormed_step (h : WellFormed s) (op : Op) : WellFormed (step mode s op).1 := by
  by_cases hop : ∃ item, op = .register item
  · obtain ⟨item, rfl⟩ := hop
    exact wellFormed_register h item
  have hreg : (step mode s op).1.registry = s.registry :=
    step_registry (fun item he ↦ hop ⟨item, he⟩)
  refine ⟨?_, hreg ▸ h.keyed, hreg ▸ ?_⟩
  · refine step_every (fun _ _ ↦ rfl) (fun _ _ _ hd ↦ take_depth.trans hd) h.shallow ?_
    exact fun c _ item _ hd ↦ (grant_depth Inventory.give_grant).trans hd
  · refine step_every (fun _ _ _ hst ↦ by cases hst) (fun _ _ _ ↦ take_named) h.defined ?_
    intro c hc item hitem hnamed
    rw [giveCalls_registry hc] at hitem
    refine grant_named hnamed ?_ Inventory.give_grant
    rw [h.keyed _ _ hitem]
    exact AList.lookup_isSome.mp (by rw [hitem]; rfl)

theorem wellFormed_run (mode : Overflow) (ops : List Op) :
    WellFormed (run (step mode) .new ops) :=
  invariant_all (I := WellFormed) (fun _ op h ↦ wellFormed_step h op) wellFormed_new ops

end Reachable

end Aldivine.Storages.Invariants
