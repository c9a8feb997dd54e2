import Aldivine.Entities.Store
import Aldivine.Foundation.Execution
import Aldivine.Foundation.Holders

namespace Aldivine.Entities.Slots

open Foundation.Execution Foundation.Generations Foundation.Machine Store

/-- The free list holds every empty slot once and nothing else, and every entity carries the number
and the generation of its slot. -/
structure Tidy (s : EntityStore) : Prop where
  free_nodup : s.free.Nodup
  free_iff : ∀ n, n ∈ s.free.map BitVec.toNat ↔ s.slots[n]? = some none
  named : ∀ n (e : Entity), s.slots[n]? = some (some e) →
    e.id.index.toNat = n ∧ s.generations[n]? = some e.id.generation

structure Fails (mode : Overflow) (s : EntityStore) (id : EntityId) : Prop where
  get : s.get id = none
  getMut : s.getMut id = none
  destroy : s.destroy mode id = (s, some false)
  setComponent : ∀ name data, s.setComponent id name data = (s, .error "entity not found or stale")
  transfer : ∀ expected next, Store.transfer s id expected next = (s, .notFound)

def spawnedBy : Call × Answer → Option EntityId
  | (_, .spawned id) => some id
  | _ => none

def destroyedBy : Call × Answer → Option EntityId
  | (.destroy id, .destroyed true) => some id
  | _ => none

def vacates (i : BitVec 32) : Call × Answer → Bool
  | (.destroy id, .destroyed true) => id.index == i
  | (.destroy id, .panicked) => id.index == i
  | _ => false

def destroyCount (i : BitVec 32) (history : List (Call × Answer)) : ℕ := history.countP (vacates i)

/-- The store is tidy, no id was given out twice, and destroyed ids are dead. -/
structure Kept (mode : Overflow) (s : EntityStore) (history : List (Call × Answer)) : Prop where
  tidy : Tidy s
  distinct : (history.filterMap spawnedBy).Nodup
  stale : ∀ id ∈ history.filterMap destroyedBy, Fails mode s id

/-- A new slot is made only while its number still fits in an index. -/
def Fits (s : EntityStore) : Call → Prop
  | .spawn _ => s.free = [] → s.slots.length < 2 ^ 32
  | _ => True

section Views

def entityAt (s : EntityStore) (n : ℕ) : Option Entity := s.slots[n]?.join

def genAt (s : EntityStore) (n : ℕ) : BitVec 32 := s.generations.getD n 0

structure Shape (s : EntityStore) : Prop where
  lengths : s.generations.length = s.slots.length
  small : s.slots.length ≤ 2 ^ 32
  active : ∀ (n : ℕ) (e : Entity), s.slots[n]? = some (some e) → e.active = true

variable {mode : Overflow} {s : EntityStore} {n : ℕ} {e : Entity} {id : EntityId}

theorem entityAt_eq_some : entityAt s n = some e ↔ s.slots[n]? = some (some e) := by
  simp [entityAt, Option.join_eq_some_iff]

theorem generations_getElem? (hs : Shape s) (hn : n < s.slots.length) :
    s.generations[n]? = some (genAt s n) := by
  rw [genAt, List.getD_eq_getElem?_getD, List.getElem?_eq_getElem (by rw [hs.lengths]; exact hn)]
  rfl

theorem lt_of_mem_free (ht : Tidy s) {i : BitVec 32} (hi : i ∈ s.free) :
    i.toNat < s.slots.length := by
  have hempty := (ht.free_iff i.toNat).mp (List.mem_map_of_mem hi)
  exact (List.getElem?_eq_some_iff.mp hempty).1

theorem fails_of_not_held
    (h : ∀ e : Entity, s.slots[id.index.toNat]? = some (some e) → e.id.generation ≠ id.generation) :
    Fails mode s id := by
  have hmut : s.getMut id = none := by
    unfold EntityStore.getMut
    split
    · rename_i e he
      exact if_neg (fun hsame ↦ h e he hsame.1)
    · rfl
  refine ⟨?_, hmut, ?_, fun _ _ ↦ ?_, fun _ _ ↦ ?_⟩
  · unfold EntityStore.get
    split
    · rename_i e he
      exact if_neg (fun hsame ↦ h e he hsame.1)
    · rfl
  · unfold EntityStore.destroy
    split
    · rename_i e he
      exact if_neg (h e he)
    · rfl
  · simp only [EntityStore.setComponent, hmut]
  · simp only [Store.transfer, hmut]

end Views

section Calls

def fresh (id : EntityId) (authority : Authority) : Entity := ⟨id, authority, ∅, true⟩

structure Quiet (x : Call × Answer) : Prop where
  no_spawn : ∀ authority, x.1 ≠ .spawn authority
  spawned : spawnedBy x = none
  destroyed : destroyedBy x = none
  vacates : ∀ i, vacates i x = false
  returned : x.2 ≠ .panicked

theorem quiet_written {id : EntityId} {name : String} {data : List UInt8}
    (result : Except String Unit) : Quiet (.setComponent id name data, .written result) :=
  ⟨fun _ h ↦ (by cases h), rfl, rfl, fun _ ↦ rfl, fun h ↦ by cases h⟩

theorem quiet_transferred {id : EntityId} {expected next : Authority} (outcome : TransferOutcome) :
    Quiet (.transfer id expected next, .transferred outcome) :=
  ⟨fun _ h ↦ (by cases h), rfl, rfl, fun _ ↦ rfl, fun h ↦ by cases h⟩

theorem quiet_missed (id : EntityId) : Quiet (.destroy id, .destroyed false) :=
  ⟨fun _ h ↦ (by cases h), rfl, rfl, fun _ ↦ rfl, fun h ↦ by cases h⟩

inductive Called (mode : Overflow) (s : EntityStore) : Call → EntityStore → Answer → Prop
  | reused {authority : Authority} {i : BitVec 32} {free : List (BitVec 32)}
      (hfree : s.free = i :: free) :
      Called mode s (.spawn authority)
        { s with
          free := free
          slots := s.slots.set i.toNat (some (fresh ⟨i, genAt s i.toNat⟩ authority)) }
        (.spawned ⟨i, genAt s i.toNat⟩)
  | grown {authority : Authority} {i : BitVec 32} (hfree : s.free = [])
      (hi : i.toNat = s.slots.length) :
      Called mode s (.spawn authority)
        { slots := s.slots ++ [some (fresh ⟨i, 0⟩ authority)]
          free := []
          generations := s.generations ++ [0] }
        (.spawned ⟨i, 0⟩)
  | truncated {authority : Authority} {s' : EntityStore} {a : Answer} (hfree : s.free = [])
      (hfull : ¬s.slots.length < 2 ^ 32) (hlast : s'.slots[s.slots.length]? = some none) :
      Called mode s (.spawn authority) s' a
  | destroyed {id : EntityId} {e : Entity} {gen : BitVec 32}
      (hslot : s.slots[id.index.toNat]? = some (some e)) (hid : e.id = id)
      (hgen : mode.add (genAt s id.index.toNat) 1 = some gen) :
      Called mode s (.destroy id)
        { slots := s.slots.set id.index.toNat none
          free := id.index :: s.free
          generations := s.generations.set id.index.toNat gen }
        (.destroyed true)
  | destroyPanic {id : EntityId} {s' : EntityStore}
      (hgen : mode.add (genAt s id.index.toNat) 1 = none) :
      Called mode s (.destroy id) s' .panicked
  | wrote {id : EntityId} {e e' : Entity} {call : Call} {a : Answer}
      (hslot : s.slots[id.index.toNat]? = some (some e)) (hid : e'.id = e.id)
      (hactive : e'.active = e.active) (hquiet : Quiet (call, a)) :
      Called mode s call (s.write id e') a
  | idle {call : Call} {a : Answer} (hquiet : Quiet (call, a)) : Called mode s call s a

variable {mode : Overflow} {s : EntityStore}

theorem spawn_called (hs : Shape s) (ht : Tidy s) (authority : Authority) :
    Called mode s (.spawn authority) (step mode s (.spawn authority)).1
      (step mode s (.spawn authority)).2 := by
  cases hfree : s.free with
  | cons i free =>
    have hlt := lt_of_mem_free ht (hfree ▸ List.mem_cons_self)
    have hgen := generations_getElem? hs hlt
    simp only [step, EntityStore.spawn, EntityStore.allocate, hfree, hgen]
    exact .reused hfree
  | nil =>
    by_cases hroom : s.slots.length < 2 ^ 32
    · have hi : (BitVec.ofNat 32 s.slots.length).toNat = s.slots.length := by
        rw [BitVec.toNat_ofNat, Nat.mod_eq_of_lt hroom]
      have hgen : (s.generations ++ [0])[s.slots.length]? = some 0 := by
        rw [← hs.lengths, List.getElem?_concat_length]
      simp only [step, EntityStore.spawn, EntityStore.allocate, hfree, hi, hgen]
      rw [List.set_append_right _ _ (Nat.le_refl _), Nat.sub_self]
      exact .grown hfree hi
    · have hmod : s.slots.length % 2 ^ 32 < s.slots.length := by
        have := Nat.mod_lt s.slots.length (show 2 ^ 32 > 0 by decide)
        omega
      have hlast : (s.slots ++ [none])[s.slots.length]? = some none :=
        List.getElem?_concat_length
      refine .truncated hfree hroom ?_
      simp only [step, EntityStore.spawn, EntityStore.allocate, hfree, BitVec.toNat_ofNat]
      split
      · exact hlast
      · rw [List.getElem?_set_ne hmod.ne]
        exact hlast

theorem destroy_called (hs : Shape s) (ht : Tidy s) (id : EntityId) :
    Called mode s (.destroy id) (step mode s (.destroy id)).1 (step mode s (.destroy id)).2 := by
  by_cases hheld : ∃ e : Entity, s.slots[id.index.toNat]? = some (some e) ∧
      e.id.generation = id.generation
  · obtain ⟨e, hslot, hsame⟩ := hheld
    have hlt := (List.getElem?_eq_some_iff.mp hslot).1
    have hid : e.id = id := by
      obtain ⟨hindex, -⟩ := ht.named _ e hslot
      cases hid : e.id
      cases id
      simp_all [BitVec.toNat_inj]
    simp only [step, EntityStore.destroy, hslot, hsame, if_true, generations_getElem? hs hlt,
      Option.bind_some]
    cases hgen : mode.add (genAt s id.index.toNat) 1 with
    | none => exact .destroyPanic hgen
    | some gen => exact .destroyed hslot hid hgen
  · have hfails : Fails mode s id := fails_of_not_held (fun e he hsame ↦ hheld ⟨e, he, hsame⟩)
    simp only [step, hfails.destroy]
    exact .idle (quiet_missed id)

theorem getMut_eq_some {id : EntityId} {e : Entity} {write : Entity → EntityStore}
    (h : s.getMut id = some (e, write)) :
    s.slots[id.index.toNat]? = some (some e) ∧ write = s.write id := by
  unfold EntityStore.getMut at h
  split at h
  · rename_i e' he
    split at h
    · cases h
      exact ⟨he, rfl⟩
    · cases h
  · cases h

theorem setComponent_called (id : EntityId) (name : String) (data : List UInt8) :
    Called mode s (.setComponent id name data) (step mode s (.setComponent id name data)).1
      (step mode s (.setComponent id name data)).2 := by
  simp only [step, EntityStore.setComponent]
  cases hmut : s.getMut id with
  | none => exact .idle (quiet_written _)
  | some r =>
    obtain ⟨hslot, hwrite⟩ := getMut_eq_some hmut
    dsimp only
    rw [hwrite]
    exact .wrote hslot rfl rfl (quiet_written _)

theorem transfer_called (id : EntityId) (expected next : Authority) :
    Called mode s (.transfer id expected next) (step mode s (.transfer id expected next)).1
      (step mode s (.transfer id expected next)).2 := by
  simp only [step, Store.transfer]
  cases hmut : s.getMut id with
  | none => exact .idle (quiet_transferred _)
  | some r =>
    obtain ⟨hslot, hwrite⟩ := getMut_eq_some hmut
    dsimp only
    rw [hwrite]
    split
    · exact .idle (quiet_transferred _)
    split
    · exact .idle (quiet_transferred _)
    · exact .wrote hslot rfl rfl (quiet_transferred _)

theorem step_called (hs : Shape s) (ht : Tidy s) (call : Call) :
    Called mode s call (step mode s call).1 (step mode s call).2 := by
  cases call with
  | spawn authority => exact spawn_called hs ht authority
  | destroy id => exact destroy_called hs ht id
  | setComponent id name data => exact setComponent_called id name data
  | transfer id expected next => exact transfer_called id expected next

end Calls

section Tidiness

variable {mode : Overflow} {s s' : EntityStore} {call : Call} {a : Answer}

theorem tidy_new : Tidy .new where
  free_nodup := List.nodup_nil
  free_iff n := by simp [EntityStore.new]
  named n e he := by cases he

theorem shape_new : Shape .new where
  lengths := rfl
  small := Nat.zero_le _
  active n e he := by cases he

theorem named_set (ht : Tidy s) {n : ℕ} {x : Entity} (hindex : x.id.index.toNat = n)
    (hgen : n < s.slots.length → s.generations[n]? = some x.id.generation) (m : ℕ) (e : Entity)
    (he : (s.slots.set n (some x))[m]? = some (some e)) :
    e.id.index.toNat = m ∧ s.generations[m]? = some e.id.generation := by
  by_cases hmn : n = m
  · subst hmn
    obtain ⟨hlt, hget⟩ := List.getElem?_eq_some_iff.mp he
    rw [List.length_set] at hlt
    rw [List.getElem?_set_self hlt] at he
    obtain rfl := Option.some.inj (Option.some.inj he)
    exact ⟨hindex, hgen hlt⟩
  · rw [List.getElem?_set_ne hmn] at he
    exact ht.named m e he

theorem tidy_reused (hs : Shape s) (ht : Tidy s) {i : BitVec 32} {free : List (BitVec 32)}
    {authority : Authority} (hfree : s.free = i :: free) :
    Tidy { s with
      free := free
      slots := s.slots.set i.toNat (some (fresh ⟨i, genAt s i.toNat⟩ authority)) } := by
  obtain ⟨hi, hnodup⟩ := List.nodup_cons.mp (hfree ▸ ht.free_nodup)
  have hlt := lt_of_mem_free ht (hfree ▸ List.mem_cons_self)
  refine ⟨hnodup, fun n ↦ ?_, named_set ht rfl (generations_getElem? hs)⟩
  have hiff := ht.free_iff n
  rw [hfree, List.map_cons, List.mem_cons] at hiff
  by_cases hn : i.toNat = n
  · subst hn
    rw [List.getElem?_set_self hlt]
    refine ⟨fun hmem ↦ ?_, fun heq ↦ by cases heq⟩
    obtain ⟨j, hj, hji⟩ := List.mem_map.mp hmem
    exact absurd (BitVec.eq_of_toNat_eq hji ▸ hj) hi
  · rw [List.getElem?_set_ne hn, ← hiff]
    exact ⟨.inr, fun h ↦ h.resolve_left (Ne.symm hn)⟩

theorem tidy_grown (hs : Shape s) (ht : Tidy s) {i : BitVec 32} {authority : Authority}
    (hfree : s.free = []) (hi : i.toNat = s.slots.length) :
    Tidy ⟨s.slots ++ [some (fresh ⟨i, 0⟩ authority)], [], s.generations ++ [0]⟩ := by
  refine ⟨List.nodup_nil, fun n ↦ ?_, fun n e he ↦ ?_⟩
  · have hiff := ht.free_iff n
    rw [hfree] at hiff
    refine ⟨fun h ↦ (by cases h), fun h ↦ ?_⟩
    rw [List.getElem?_append] at h
    split at h
    · exact hiff.mpr h
    · rw [List.getElem?_singleton] at h
      split at h <;> cases h
  · simp only [List.getElem?_append] at he ⊢
    split at he
    · rename_i hlt
      rw [if_pos (by rw [hs.lengths]; exact hlt)]
      exact ht.named n e he
    · rename_i hge
      rw [List.getElem?_singleton] at he
      split at he
      · rename_i hn
        obtain rfl := Option.some.inj (Option.some.inj he)
        have hlast : n = s.slots.length := by omega
        subst hlast
        rw [if_neg (by rw [hs.lengths]; exact hge), hs.lengths, Nat.sub_self]
        exact ⟨hi, rfl⟩
      · cases he

theorem tidy_destroyed (ht : Tidy s) {i : BitVec 32} {e : Entity} (gen : BitVec 32)
    (hslot : s.slots[i.toNat]? = some (some e)) :
    Tidy ⟨s.slots.set i.toNat none, i :: s.free, s.generations.set i.toNat gen⟩ := by
  have hlt := (List.getElem?_eq_some_iff.mp hslot).1
  have hfull (n : ℕ) (hn : n ∈ s.free.map BitVec.toNat) : i.toNat ≠ n := by
    intro heq
    subst heq
    have hempty := (ht.free_iff _).mp hn
    rw [hslot] at hempty
    cases hempty
  refine ⟨List.nodup_cons.mpr ⟨fun hi ↦ ?_, ht.free_nodup⟩, fun n ↦ ?_, fun n e' he ↦ ?_⟩
  · exact hfull _ (List.mem_map_of_mem hi) rfl
  · rw [List.map_cons, List.mem_cons]
    by_cases hn : i.toNat = n
    · subst hn
      rw [List.getElem?_set_self hlt]
      exact ⟨fun _ ↦ rfl, fun _ ↦ .inl rfl⟩
    · rw [List.getElem?_set_ne hn, ← ht.free_iff]
      exact ⟨fun h ↦ h.resolve_left (Ne.symm hn), .inr⟩
  · by_cases hn : i.toNat = n
    · subst hn
      rw [List.getElem?_set_self hlt] at he
      cases he
    · rw [List.getElem?_set_ne hn] at he ⊢
      exact ht.named n e' he

theorem tidy_write (ht : Tidy s) {id : EntityId} {e e' : Entity}
    (hslot : s.slots[id.index.toNat]? = some (some e)) (hid : e'.id = e.id) :
    Tidy (s.write id e') := by
  have hlt := (List.getElem?_eq_some_iff.mp hslot).1
  obtain ⟨hindex, hgen⟩ := ht.named _ e hslot
  refine ⟨ht.free_nodup, fun n ↦ ?_, named_set ht (hid ▸ hindex) (fun _ ↦ hid ▸ hgen)⟩
  change n ∈ s.free.map BitVec.toNat ↔ (s.slots.set id.index.toNat (some e'))[n]? = some none
  rw [ht.free_iff]
  by_cases hn : id.index.toNat = n
  · subst hn
    rw [List.getElem?_set_self hlt, hslot]
    simp
  · rw [List.getElem?_set_ne hn]

/-- Every call keeps the store tidy, except the one that cuts off a slot number. -/
theorem Called.tidy (h : Called mode s call s' a) (hs : Shape s) (ht : Tidy s)
    (hfits : Fits s call) (hpanic : a ≠ .panicked) : Tidy s' := by
  cases h with
  | reused hfree => exact tidy_reused hs ht hfree
  | grown hfree hi => exact tidy_grown hs ht hfree hi
  | truncated hfree hfull => exact absurd (hfits hfree) hfull
  | destroyed hslot hid hgen => exact tidy_destroyed ht _ hslot
  | destroyPanic => exact absurd rfl hpanic
  | wrote hslot hid => exact tidy_write ht hslot hid
  | idle => exact ht

theorem Called.shape (h : Called mode s call s' a) (hs : Shape s) (hfits : Fits s call)
    (hpanic : a ≠ .panicked) : Shape s' := by
  have hset (n : ℕ) (x : Option Entity) (hx : ∀ e, x = some e → e.active = true) (m : ℕ)
      (e : Entity) (he : (s.slots.set n x)[m]? = some (some e)) : e.active = true := by
    rcases List.mem_or_eq_of_mem_set (List.mem_of_getElem? he) with hmem | heq
    · obtain ⟨k, hk⟩ := List.mem_iff_getElem?.mp hmem
      exact hs.active k e hk
    · exact hx e heq.symm
  have hnew (id : EntityId) (authority : Authority) (e : Entity)
      (he : some (fresh id authority) = some e) : e.active = true := by
    cases he
    rfl
  cases h with
  | reused hfree =>
    refine ⟨?_, ?_, hset _ _ (hnew _ _)⟩
    · rw [List.length_set]
      exact hs.lengths
    · rw [List.length_set]
      exact hs.small
  | grown hfree hi =>
    have hroom := hfits hfree
    refine ⟨?_, ?_, fun n e he ↦ ?_⟩
    · simp only [List.length_append, hs.lengths, List.length_singleton]
    · simp only [List.length_append, List.length_singleton]
      omega
    · rw [List.getElem?_append] at he
      split at he
      · exact hs.active n e he
      · have hmem := List.mem_singleton.mp (List.mem_of_getElem? he)
        exact hnew _ _ e hmem.symm
  | truncated hfree hfull => exact absurd (hfits hfree) hfull
  | destroyed =>
    refine ⟨?_, ?_, hset _ _ (fun e he ↦ by cases he)⟩
    · rw [List.length_set, List.length_set]
      exact hs.lengths
    · rw [List.length_set]
      exact hs.small
  | destroyPanic => exact absurd rfl hpanic
  | @wrote id e e' call a hslot hid hactive =>
    refine ⟨?_, ?_, hset _ _ (fun x hx ↦ ?_)⟩
    · exact hs.lengths.trans (List.length_set ..).symm
    · exact (List.length_set ..).trans_le hs.small
    · cases hx
      rw [hactive]
      exact hs.active _ e hslot
  | idle => exact hs

end Tidiness

section Names

variable {mode : Overflow} {s s' : EntityStore} {call : Call} {a : Answer}
  {history : List (Call × Answer)}

def name (id : EntityId) : BitVec 32 × ℕ := (id.index, id.generation.toNat)

/-- The names given out and taken back so far, against the generations and the occupied slots. -/
def Named (s : EntityStore) (history : List (Call × Answer)) : Prop :=
  Issued (fun i : BitVec 32 ↦ (genAt s i.toNat).toNat)
    (fun i : BitVec 32 ↦ entityAt s i.toNat ≠ none)
    ((history.filterMap spawnedBy).map name) ((history.filterMap destroyedBy).map name)

def Counted (s : EntityStore) (history : List (Call × Answer)) : Prop :=
  ∀ i : BitVec 32, (genAt s i.toNat).toNat = destroyCount i history

theorem entityAt_set {n m : ℕ} {x : Option Entity} (hn : n < s.slots.length) :
    entityAt { s with slots := s.slots.set n x } m = if m = n then x else entityAt s m := by
  unfold entityAt
  split
  · rename_i heq
    subst heq
    rw [List.getElem?_set_self hn]
    rfl
  · rename_i hne
    rw [List.getElem?_set_ne (Ne.symm hne)]

theorem genAt_set {n : ℕ} (hn : n < s.generations.length) (gen : BitVec 32) (m : ℕ) :
    genAt { s with generations := s.generations.set n gen } m =
      if m = n then gen else genAt s m := by
  simp only [genAt, List.getD_eq_getElem?_getD]
  split
  · rename_i heq
    subst heq
    rw [List.getElem?_set_self hn]
    rfl
  · rename_i hne
    rw [List.getElem?_set_ne (Ne.symm hne)]

theorem entityAt_append {m : ℕ} {x : Entity} :
    entityAt { s with slots := s.slots ++ [some x] } m =
      if m = s.slots.length then some x else entityAt s m := by
  unfold entityAt
  split
  · rename_i heq
    subst heq
    rw [List.getElem?_concat_length]
    rfl
  · rename_i hne
    by_cases hlt : m < s.slots.length
    · rw [List.getElem?_append_left hlt]
    · rw [List.getElem?_eq_none (by simp; omega), List.getElem?_eq_none (by omega)]

theorem genAt_append {m : ℕ} :
    genAt { s with generations := s.generations ++ [0] } m = genAt s m := by
  simp only [genAt, List.getD_eq_getElem?_getD]
  by_cases hlt : m < s.generations.length
  · rw [List.getElem?_append_left hlt]
  · have hnone : s.generations[m]? = none := List.getElem?_eq_none (by omega)
    rw [List.getElem?_append_right (by omega), hnone, List.getElem?_singleton]
    split <;> rfl

theorem named_quiet (hn : Named s history) (hgen : ∀ n, genAt s' n = genAt s n)
    (hocc : ∀ n, entityAt s' n ≠ none ↔ entityAt s n ≠ none) (hquiet : Quiet (call, a)) :
    Named s' (history ++ [(call, a)]) := by
  have hissued : Issued (fun j : BitVec 32 ↦ (genAt s' j.toNat).toNat)
      (fun j : BitVec 32 ↦ entityAt s' j.toNat ≠ none) _ _ :=
    Issued.congr hn (fun i ↦ by rw [hgen]) (fun i ↦ hocc i.toNat)
  simpa [Named, List.filterMap_append, hquiet.spawned, hquiet.destroyed] using hissued

theorem named_spawned {authority : Authority} {i : BitVec 32} {e : Entity} (hn : Named s history)
    (hempty : entityAt s i.toNat = none) (hgen : ∀ n, genAt s' n = genAt s n)
    (hocc : ∀ n, entityAt s' n = if n = i.toNat then some e else entityAt s n) :
    Named s' (history ++ [(.spawn authority, .spawned ⟨i, genAt s i.toNat⟩)]) := by
  have hbusy (j : BitVec 32) : entityAt s' j.toNat ≠ none ↔ entityAt s j.toNat ≠ none ∨ j = i := by
    rw [hocc, ← BitVec.toNat_inj]
    split <;> simp_all
  have hissued : Issued (fun j : BitVec 32 ↦ (genAt s' j.toNat).toNat)
      (fun j : BitVec 32 ↦ entityAt s' j.toNat ≠ none) _ _ :=
    Issued.issue hn (fun hheld ↦ hheld hempty) (fun j ↦ by rw [hgen]) hbusy
  unfold Named
  rw [List.filterMap_append, List.filterMap_append, List.map_append, List.map_append]
  exact (List.append_nil (List.map name (history.filterMap destroyedBy))).symm ▸ hissued

theorem named_destroyed {id : EntityId} {gen : BitVec 32} (hn : Named s history)
    (hid : id.generation = genAt s id.index.toNat)
    (hsucc : gen.toNat = (genAt s id.index.toNat).toNat + 1)
    (hgen : ∀ n, genAt s' n = if n = id.index.toNat then gen else genAt s n)
    (hocc : ∀ n, entityAt s' n = if n = id.index.toNat then none else entityAt s n) :
    Named s' (history ++ [(.destroy id, .destroyed true)]) := by
  have hnext (j : BitVec 32) : (genAt s' j.toNat).toNat =
      if j = id.index then (genAt s id.index.toNat).toNat + 1 else (genAt s j.toNat).toNat := by
    rw [hgen]
    simp only [BitVec.toNat_inj]
    split
    · exact hsucc
    · rfl
  have hbusy (j : BitVec 32) :
      entityAt s' j.toNat ≠ none ↔ entityAt s j.toNat ≠ none ∧ j ≠ id.index := by
    rw [hocc]
    simp only [BitVec.toNat_inj]
    split <;> simp_all
  have hissued : Issued (fun j : BitVec 32 ↦ (genAt s' j.toNat).toNat)
      (fun j : BitVec 32 ↦ entityAt s' j.toNat ≠ none) _ _ := Issued.revoke hn hnext hbusy
  rw [← hid] at hissued
  unfold Named
  rw [List.filterMap_append, List.filterMap_append, List.map_append, List.map_append]
  exact (List.append_nil (List.map name (history.filterMap spawnedBy))).symm ▸ hissued

theorem destroyCount_concat {i : BitVec 32} {x : Call × Answer} :
    destroyCount i (history ++ [x]) = destroyCount i history + if vacates i x then 1 else 0 := by
  rw [destroyCount, List.countP_append, List.countP_singleton, destroyCount]

theorem counted_quiet (hc : Counted s history) (hgen : ∀ n, genAt s' n = genAt s n)
    (hvacates : ∀ i, vacates i (call, a) = false) : Counted s' (history ++ [(call, a)]) := by
  intro i
  rw [destroyCount_concat, hvacates, hgen]
  exact hc i

theorem counted_destroyed {id : EntityId} {gen : BitVec 32} (hc : Counted s history)
    (hsucc : gen.toNat = (genAt s id.index.toNat).toNat + 1)
    (hgen : ∀ n, genAt s' n = if n = id.index.toNat then gen else genAt s n) :
    Counted s' (history ++ [(.destroy id, .destroyed true)]) := by
  intro i
  rw [destroyCount_concat, hgen, ← hc i]
  simp only [vacates, beq_iff_eq]
  by_cases hi : id.index = i
  · subst hi
    rw [if_pos rfl, if_pos rfl, hsucc]
  · have hne : i.toNat ≠ id.index.toNat := fun h ↦ hi (BitVec.eq_of_toNat_eq h.symm)
    rw [if_neg hne, if_neg hi, Nat.add_zero]

/-- The store is in order, and the history says why. -/
structure Sound (s : EntityStore) (history : List (Call × Answer)) : Prop where
  shape : Shape s
  tidy : Tidy s
  named : Named s history
  counted : Counted s history

/-- No slot has been destroyed so often that its generation would repeat. -/
def Rested (history : List (Call × Answer)) : Prop := ∀ i, destroyCount i history < 2 ^ 32

theorem genAt_add_one {id : EntityId} (hc : Counted s history)
    (hrest : Rested (history ++ [(.destroy id, a)]))
    (ha : vacates id.index (.destroy id, a) = true) :
    (genAt s id.index.toNat).toNat + 1 < 2 ^ 32 := by
  have hlt := hrest id.index
  rwa [destroyCount_concat, ha, if_pos rfl, ← hc] at hlt

theorem not_panicked (h : Called mode s call s' a) (hc : Counted s history)
    (hrest : Rested (history ++ [(call, a)])) (hfits : Fits s call) : a ≠ .panicked := by
  rintro rfl
  cases h with
  | truncated hfree hfull => exact absurd (hfits hfree) hfull
  | @destroyPanic id s' hgen =>
    have hlt := genAt_add_one hc hrest (beq_self_eq_true id.index)
    rw [Overflow.add, word_of_lt (by simpa using hlt)] at hgen
    cases hgen
  | wrote hslot hid hactive hquiet => exact hquiet.returned rfl
  | idle hquiet => exact hquiet.returned rfl

theorem Called.sound (h : Called mode s call s' a) (hsound : Sound s history)
    (hrest : Rested (history ++ [(call, a)])) (hfits : Fits s call) :
    Sound s' (history ++ [(call, a)]) := by
  have hpanic := not_panicked h hsound.counted hrest hfits
  obtain ⟨hs, ht, hn, hc⟩ := hsound
  suffices hboth : Named s' (history ++ [(call, a)]) ∧ Counted s' (history ++ [(call, a)]) from
    ⟨h.shape hs hfits hpanic, h.tidy hs ht hfits hpanic, hboth.1, hboth.2⟩
  cases h with
  | @reused authority i free hfree =>
    have hmem : i ∈ s.free := hfree ▸ List.mem_cons_self
    have hempty : entityAt s i.toNat = none := by
      rw [entityAt, (ht.free_iff _).mp (List.mem_map_of_mem hmem)]
      rfl
    refine ⟨?_, counted_quiet hc (fun _ ↦ rfl) (fun _ ↦ rfl)⟩
    exact named_spawned hn hempty (fun _ ↦ rfl) (fun n ↦ entityAt_set (lt_of_mem_free ht hmem))
  | @grown authority i hfree hi =>
    have hempty : entityAt s i.toNat = none := by
      rw [entityAt, hi, List.getElem?_eq_none (Nat.le_refl _)]
      rfl
    have hzero : genAt s i.toNat = 0 := by
      rw [genAt, List.getD_eq_getElem?_getD, List.getElem?_eq_none (by rw [hi, hs.lengths])]
      rfl
    refine ⟨?_, counted_quiet hc (fun _ ↦ genAt_append) (fun _ ↦ rfl)⟩
    have hnamed : Named ⟨s.slots ++ [some (fresh ⟨i, 0⟩ authority)], [], s.generations ++ [0]⟩
        (history ++ [(.spawn authority, .spawned ⟨i, genAt s i.toNat⟩)]) :=
      named_spawned hn hempty (fun _ ↦ genAt_append) (fun n ↦ hi ▸ entityAt_append)
    rwa [hzero] at hnamed
  | truncated hfree hfull => exact absurd (hfits hfree) hfull
  | @destroyed id e gen hslot hid hgen =>
    have hlt := (List.getElem?_eq_some_iff.mp hslot).1
    have hcurrent : id.generation = genAt s id.index.toNat := by
      have hsome := generations_getElem? hs hlt
      rw [(ht.named _ e hslot).2, hid] at hsome
      exact Option.some.inj hsome
    have hroom := genAt_add_one hc hrest (beq_self_eq_true id.index)
    have hsucc : gen.toNat = (genAt s id.index.toNat).toNat + 1 :=
      word_exact hgen (fun _ ↦ hroom)
    have hgens (n : ℕ) := genAt_set (hs.lengths ▸ hlt) gen n
    exact ⟨named_destroyed hn hcurrent hsucc hgens (fun n ↦ entityAt_set hlt),
      counted_destroyed hc hsucc hgens⟩
  | destroyPanic => exact absurd rfl hpanic
  | @wrote id e e' call a hslot hid hactive hquiet =>
    have hlt := (List.getElem?_eq_some_iff.mp hslot).1
    refine ⟨named_quiet hn (fun _ ↦ rfl) (fun n ↦ ?_) hquiet,
      counted_quiet hc (fun _ ↦ rfl) hquiet.vacates⟩
    rw [EntityStore.write, entityAt_set hlt]
    split
    · rename_i heq
      rw [heq, entityAt_eq_some.mpr hslot]
      simp
    · rfl
  | idle hquiet =>
    exact ⟨named_quiet hn (fun _ ↦ rfl) (fun _ ↦ Iff.rfl) hquiet,
      counted_quiet hc (fun _ ↦ rfl) hquiet.vacates⟩

theorem Sound.kept (h : Sound s history) : Kept mode s history where
  tidy := h.tidy
  distinct := h.named.nodup.of_map _
  stale id hid := by
    have hpassed : id.generation.toNat < (genAt s id.index.toNat).toNat :=
      h.named.passed (name id) (List.mem_map_of_mem hid)
    refine fails_of_not_held (fun e he hsame ↦ ?_)
    have hlt := (List.getElem?_eq_some_iff.mp he).1
    have hsome := generations_getElem? h.shape hlt
    rw [(h.tidy.named _ e he).2, hsame] at hsome
    rw [← Option.some.inj hsome] at hpassed
    exact Nat.lt_irrefl _ hpassed

/-- A slot number that was cut off leaves an empty slot that the free list cannot name. -/
theorem fits_of_tidy (h : Called mode s call s' a) (ht : Tidy s') : Fits s call := by
  cases h with
  | @grown authority i hfree hi =>
    intro _
    rw [← hi]
    exact i.isLt
  | truncated hfree hfull hlast =>
    obtain ⟨i, -, hi⟩ := List.mem_map.mp ((ht.free_iff _).mpr hlast)
    exact absurd (hi ▸ i.isLt) hfull
  | @reused authority i free hfree =>
    intro hnil
    rw [hfree] at hnil
    cases hnil
  | destroyed | destroyPanic => trivial
  | wrote _ _ _ hquiet | idle hquiet =>
    cases call with
    | spawn authority => exact absurd rfl (hquiet.no_spawn authority)
    | destroy | setComponent | transfer => trivial

end Names

/-- As long as no slot is destroyed `2 ^ 32` times, the free list, the names and the stale ids are
in order throughout exactly when no slot is made whose number does not fit in an index. -/
theorem ids_never_alias_iff (mode : Overflow) (calls : List Call)
    (hrest : ∀ i, destroyCount i (answers (step mode) .new calls) < 2 ^ 32) :
    (∀ before, before <+: calls →
      Kept mode (run (step mode) .new before) (answers (step mode) .new before)) ↔
    ∀ x ∈ trace (step mode) .new calls, Fits x.1 x.2 := by
  refine answers_run_iff_under (C := Rested) (B := Sound) (I := Kept mode) (P := Fits)
    (fun history x h i ↦ ?_) (fun s history call hr hb hp ↦ ?_) (fun s history call hr hb _ ↦ ?_)
    ?_ ?_ calls hrest
  · exact (Nat.le_add_right _ _).trans_lt (destroyCount_concat (i := i) (x := x) ▸ h i)
  · exact (step_called hb.shape hb.tidy call).sound hb hr hp
  · have hcall : Called mode s call _ _ := step_called hb.shape hb.tidy call
    exact ⟨fun hnext ↦ fits_of_tidy hcall hnext.tidy, fun hp ↦ (hcall.sound hb hr hp).kept⟩
  · exact ⟨shape_new, tidy_new, issued_nil, fun _ ↦ rfl⟩
  · exact ⟨tidy_new, List.nodup_nil, fun _ h ↦ by cases h⟩

def reuseRun : List Call :=
  [.spawn .server, .destroy ⟨0, 0⟩, .spawn (.player 7), .transfer ⟨0, 0⟩ (.player 7) .server]

theorem reuseRun_in_order :
    (∀ i, destroyCount i (answers (step .panics) .new reuseRun) < 2 ^ 32) ∧
    Kept .panics (run (step .panics) .new reuseRun) (answers (step .panics) .new reuseRun) := by
  have hrest : ∀ i, destroyCount i (answers (step .panics) .new reuseRun) < 2 ^ 32 := by
    intro i
    exact List.countP_le_length.trans_lt (by decide)
  refine ⟨hrest, (ids_never_alias_iff .panics reuseRun hrest).mpr ?_ reuseRun List.prefix_rfl⟩
  intro x hx
  simp only [reuseRun, trace, List.mem_cons, List.not_mem_nil, or_false] at hx
  rcases hx with rfl | rfl | rfl | rfl
  · exact fun _ ↦ by decide
  · trivial
  · exact fun h ↦ by cases h
  · trivial

section Crowd

variable {mode : Overflow}

structure Crowd (n : ℕ) (s : EntityStore) : Prop where
  free : s.free = []
  slots : s.slots.length = n
  generations : s.generations = List.replicate n 0

theorem crowd_step (mode : Overflow) {n : ℕ} {s : EntityStore} (h : Crowd n s)
    (authority : Authority) :
    Crowd (n + 1) (step mode s (.spawn authority)).1 ∧
      (step mode s (.spawn authority)).2 = .spawned ⟨BitVec.ofNat 32 n, 0⟩ := by
  have hgen : s.generations ++ [0] = List.replicate (n + 1) 0 := by
    rw [h.generations, List.replicate_succ']
  have hindex : (List.replicate (n + 1) (0 : BitVec 32))[(BitVec.ofNat 32 n).toNat]? = some 0 := by
    have hle : n % 2 ^ 32 ≤ n := Nat.mod_le _ _
    rw [BitVec.toNat_ofNat, List.getElem?_replicate_of_lt (by omega)]
  simp only [step, EntityStore.spawn, EntityStore.allocate, h.free, h.slots, hgen, hindex]
  refine ⟨⟨rfl, ?_, rfl⟩, rfl⟩
  rw [List.length_set, List.length_append, h.slots, List.length_singleton]

theorem answers_spawns (n : ℕ) (authority : Authority) :
    Crowd n (run (step mode) .new (List.replicate n (.spawn authority))) ∧
    answers (step mode) .new (List.replicate n (.spawn authority)) =
      (List.range n).map (fun k ↦ (.spawn authority, .spawned ⟨BitVec.ofNat 32 k, 0⟩)) := by
  induction n with
  | zero => exact ⟨⟨rfl, rfl, rfl⟩, rfl⟩
  | succ n ih =>
    obtain ⟨hcrowd, hanswer⟩ := crowd_step mode ih.1 authority
    rw [List.replicate_succ', run_concat, answers_concat, ih.2, hanswer, List.range_succ,
      List.map_append]
    exact ⟨hcrowd, rfl⟩

def crowd : List Call := List.replicate (2 ^ 32 + 1) (.spawn .server)

theorem crowd_rested (i : BitVec 32) :
    destroyCount i (answers (step mode) .new crowd) < 2 ^ 32 := by
  have hnone : destroyCount i (answers (step mode) .new crowd) = 0 := by
    rw [crowd, (answers_spawns _ _).2, destroyCount, List.countP_eq_zero]
    intro x hx
    obtain ⟨k, -, rfl⟩ := List.mem_map.mp hx
    exact Bool.false_ne_true
  rw [hnone]
  exact Nat.two_pow_pos 32

theorem spawned_spawns (n : ℕ) (authority : Authority) :
    (answers (step mode) .new (List.replicate n (.spawn authority))).filterMap spawnedBy =
      (List.range n).map (fun k ↦ ⟨BitVec.ofNat 32 k, 0⟩) := by
  rw [(answers_spawns n authority).2, List.filterMap_map]
  exact congrFun List.filterMap_eq_map' _

/-- The first and the last spawn return the same id. -/
theorem crowd_alias : ¬((answers (step mode) .new crowd).filterMap spawnedBy).Nodup := by
  intro hnodup
  rw [crowd, spawned_spawns] at hnodup
  have hfirst : 0 ∈ List.range (2 ^ 32 + 1) := List.mem_range.mpr (Nat.succ_pos _)
  have hlast : 2 ^ 32 ∈ List.range (2 ^ 32 + 1) := List.mem_range.mpr (Nat.lt_succ_self _)
  have hsame := List.inj_on_of_nodup_map hnodup hfirst hlast rfl
  exact absurd hsame (by decide)

theorem crowd_not_kept :
    ((∀ i, destroyCount i (answers (step .wraps) .new crowd) < 2 ^ 32) ∧
      ¬Kept .wraps (run (step .wraps) .new crowd) (answers (step .wraps) .new crowd)) ∧
    (∀ i, destroyCount i (answers (step .panics) .new crowd) < 2 ^ 32) ∧
      ¬Kept .panics (run (step .panics) .new crowd) (answers (step .panics) .new crowd) :=
  ⟨⟨crowd_rested, fun h ↦ crowd_alias h.distinct⟩, crowd_rested, fun h ↦ crowd_alias h.distinct⟩

end Crowd

end Aldivine.Entities.Slots
