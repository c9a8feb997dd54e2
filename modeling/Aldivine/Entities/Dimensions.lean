import Aldivine.Entities.Store
import Aldivine.Foundation.Execution

namespace Aldivine.Entities.Dimensions

open Foundation.Execution Foundation.Machine Store

structure DimensionId where
  value : BitVec 32
deriving DecidableEq

def DimensionId.default : DimensionId := ⟨0⟩

structure DimensionMap where
  dims : AList (fun _ : BitVec 32 × BitVec 32 ↦ DimensionId)

namespace DimensionMap

def new : DimensionMap := ⟨∅⟩

def key (id : EntityId) : BitVec 32 × BitVec 32 := (id.index, id.generation)

def idOf (k : BitVec 32 × BitVec 32) : EntityId := ⟨k.1, k.2⟩

def set (m : DimensionMap) (store : EntityStore) (id : EntityId) (dim : DimensionId) :
    DimensionMap × Bool :=
  if (store.get id).isNone then (m, false) else (⟨m.dims.insert (key id) dim⟩, true)

def dimensionOf (m : DimensionMap) (store : EntityStore) (id : EntityId) : Option DimensionId := do
  let _ ← store.get id
  return (m.dims.lookup (key id)).getD .default

def remove (m : DimensionMap) (id : EntityId) : DimensionMap × Bool :=
  (⟨m.dims.erase (key id)⟩, (m.dims.lookup (key id)).isSome)

def prune (m : DimensionMap) (store : EntityStore) : DimensionMap × ℕ :=
  let dims : AList (fun _ : BitVec 32 × BitVec 32 ↦ DimensionId) :=
    ⟨m.dims.entries.filter (fun e ↦ (store.get (idOf e.1)).isSome),
      m.dims.nodupKeys.sublist List.filter_sublist⟩
  (⟨dims⟩, m.dims.entries.length - dims.entries.length)

/-- Only the explicit assignments are walked. -/
def membersOf (m : DimensionMap) (store : EntityStore) (dim : DimensionId) : List EntityId :=
  (m.dims.entries.filter (fun e ↦ e.2 == dim)).filterMap (fun e ↦
    if (store.get (idOf e.1)).isSome then some (idOf e.1) else none)

def visibleTo (m : DimensionMap) (store : EntityStore) (a b : EntityId) : Bool :=
  match m.dimensionOf store a, m.dimensionOf store b with
  | some da, some db => da == db
  | _, _ => false

def assignmentCount (m : DimensionMap) : ℕ := m.dims.entries.length

end DimensionMap

open DimensionMap

structure World where
  store : EntityStore
  dims : DimensionMap

inductive Act
  | spawn (authority : Authority)
  | destroy (id : EntityId)
  | set (id : EntityId) (dim : DimensionId)
  | remove (id : EntityId)
  | prune
deriving DecidableEq

inductive Reply
  | store (answer : Answer)
  | changed (was : Bool)
  | pruned (count : ℕ)

def act (mode : Overflow) (w : World) : Act → World × Reply
  | .spawn authority =>
    let (store, answer) := step mode w.store (.spawn authority)
    ({ w with store := store }, .store answer)
  | .destroy id =>
    let (store, answer) := step mode w.store (.destroy id)
    ({ w with store := store }, .store answer)
  | .set id dim =>
    let (dims, was) := w.dims.set w.store id dim
    ({ w with dims := dims }, .changed was)
  | .remove id =>
    let (dims, was) := w.dims.remove id
    ({ w with dims := dims }, .changed was)
  | .prune =>
    let (dims, count) := w.dims.prune w.store
    ({ w with dims := dims }, .pruned count)

def World.new : World := ⟨.new, .new⟩

def Live (w : World) (e : EntityId) : Prop := (w.store.get e).isSome = true

def Assigned (w : World) (e : EntityId) : Prop := key e ∈ w.dims.dims

/-- The listings are the dimensions: each without repetition, every live entity in exactly one, and
to be visible to each other is to be listed together. -/
structure Partitioned (w : World) : Prop where
  nodup : ∀ dim, (w.dims.membersOf w.store dim).Nodup
  members : ∀ dim e, e ∈ w.dims.membersOf w.store dim ↔ w.dims.dimensionOf w.store e = some dim
  once : ∀ e, Live w e → ∃! dim, e ∈ w.dims.membersOf w.store dim
  visible : ∀ a b, w.dims.visibleTo w.store a b = true ↔
    ∃ dim, a ∈ w.dims.membersOf w.store dim ∧ b ∈ w.dims.membersOf w.store dim

section Members

variable {w : World} {e a b : EntityId} {dim : DimensionId}

theorem dimensionOf_eq_some :
    w.dims.dimensionOf w.store e = some dim ↔
      Live w e ∧ (w.dims.dims.lookup (key e)).getD .default = dim := by
  unfold dimensionOf Live
  cases w.store.get e with
  | none => simp
  | some x => simp

theorem mem_membersOf :
    e ∈ w.dims.membersOf w.store dim ↔ Live w e ∧ w.dims.dims.lookup (key e) = some dim := by
  have hlookup : w.dims.dims.lookup (key e) = some dim ↔ ⟨key e, dim⟩ ∈ w.dims.dims.entries :=
    AList.mem_lookup_iff
  rw [hlookup]
  simp only [membersOf, List.mem_filterMap, List.mem_filter, beq_iff_eq,
    Option.ite_none_right_eq_some, Option.some.injEq]
  constructor
  · intro hparts
    obtain ⟨⟨k, d⟩, ⟨hmem, rfl⟩, hlive, rfl⟩ := hparts
    exact ⟨hlive, hmem⟩
  · intro hparts
    obtain ⟨hlive, hmem⟩ := hparts
    exact ⟨⟨key e, dim⟩, ⟨hmem, rfl⟩, hlive, rfl⟩

theorem mem_membersOf_iff :
    e ∈ w.dims.membersOf w.store dim ↔
      Assigned w e ∧ w.dims.dimensionOf w.store e = some dim := by
  rw [mem_membersOf, dimensionOf_eq_some, Assigned, ← AList.lookup_isSome]
  cases w.dims.dims.lookup (key e) with
  | none => simp
  | some d => simp

theorem membersOf_nodup (w : World) (dim : DimensionId) : (w.dims.membersOf w.store dim).Nodup := by
  have hkeys := (w.dims.dims.nodupKeys.sublist
    (List.filter_sublist (p := fun e ↦ e.2 == dim))).pairwise_ne
  refine List.Pairwise.filterMap _ (fun x y hne e he e' he' heq ↦ ?_) hkeys
  simp only [Option.ite_none_right_eq_some, Option.some.injEq] at he he'
  have hsame : idOf x.1 = idOf y.1 := he.2.trans (heq.trans he'.2.symm)
  obtain ⟨hindex, hgen⟩ := EntityId.mk.inj hsame
  exact hne (Prod.ext hindex hgen)

theorem visibleTo_iff :
    w.dims.visibleTo w.store a b = true ↔
      ∃ dim, w.dims.dimensionOf w.store a = some dim ∧ w.dims.dimensionOf w.store b = some dim := by
  unfold visibleTo
  cases w.dims.dimensionOf w.store a with
  | none => simp
  | some da =>
    cases w.dims.dimensionOf w.store b with
    | none => simp
    | some db =>
      simp only [beq_iff_eq, Option.some.injEq, exists_eq_left']
      exact eq_comm

theorem partitioned_iff : Partitioned w ↔ ∀ e, Live w e → Assigned w e := by
  constructor
  · intro h e hlive
    have hdim := dimensionOf_eq_some.mpr ⟨hlive, rfl⟩
    exact (mem_membersOf_iff.mp ((h.members _ e).mpr hdim)).1
  · intro h
    have hmembers (dim : DimensionId) (e : EntityId) :
        e ∈ w.dims.membersOf w.store dim ↔ w.dims.dimensionOf w.store e = some dim := by
      rw [mem_membersOf_iff]
      exact ⟨And.right, fun hdim ↦ ⟨h e (dimensionOf_eq_some.mp hdim).1, hdim⟩⟩
    refine ⟨membersOf_nodup w, hmembers, fun e hlive ↦ ?_, fun a b ↦ ?_⟩
    · have hdim := dimensionOf_eq_some.mpr ⟨hlive, rfl⟩
      refine ⟨_, (hmembers _ e).mpr hdim, fun dim' hdim' ↦ ?_⟩
      exact Option.some.inj (((hmembers dim' e).mp hdim').symm.trans hdim)
    · rw [visibleTo_iff]
      simp only [hmembers]

end Members

/-- In every state that calls on the store and on the map reach: the listings are the dimensions
exactly when every live entity has been assigned to one. -/
theorem dimensions_partition_iff (mode : Overflow) (acts : List Act) :
    Partitioned (run (act mode) .new acts) ↔
      ∀ e, Live (run (act mode) .new acts) e → Assigned (run (act mode) .new acts) e :=
  partitioned_iff

def unassignedRun : List Act := [.spawn .server]

theorem unassignedRun_not_listed :
    (run (act .panics) .new unassignedRun).dims.dimensionOf
      (run (act .panics) .new unassignedRun).store ⟨0, 0⟩ = some .default ∧
    (run (act .panics) .new unassignedRun).dims.membersOf
      (run (act .panics) .new unassignedRun).store .default = [] ∧
    ¬Partitioned (run (act .panics) .new unassignedRun) := by
  refine ⟨rfl, rfl, fun h ↦ ?_⟩
  exact List.not_mem_nil ((h.members .default ⟨0, 0⟩).mpr rfl)

end Aldivine.Entities.Dimensions
