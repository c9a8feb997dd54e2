import Aldivine.Foundation.Machine
import Mathlib.Data.List.AList

namespace Aldivine.Entities.Store

open Foundation.Machine

structure EntityId where
  index : BitVec 32
  generation : BitVec 32
deriving DecidableEq

inductive Authority
  | server
  | player (id : UInt64)
  | resource (id : UInt64)
deriving DecidableEq

structure Entity where
  id : EntityId
  authority : Authority
  components : AList (fun _ : String ↦ List UInt8)
  active : Bool

/-- The free list is a stack, its top in front. -/
structure EntityStore where
  slots : List (Option Entity)
  free : List (BitVec 32)
  generations : List (BitVec 32)

inductive TransferRefusal
  | ownerMismatch (expected actual : Authority)
  | mustReleaseFirst (fromOwner toOwner : Authority)
deriving DecidableEq

inductive TransferOutcome
  | transferred (fromOwner toOwner : Authority)
  | refused (reason : TransferRefusal)
  | notFound
deriving DecidableEq

namespace EntityStore

def new : EntityStore := ⟨[], [], []⟩

/-- The index a new entity gets: the top of the free list, or a new slot, whose number is cut to
32 bits. -/
def allocate (s : EntityStore) : EntityStore × BitVec 32 :=
  match s.free with
  | i :: free => ({ s with free := free }, i)
  | [] =>
    ({ s with slots := s.slots ++ [none], generations := s.generations ++ [0] },
      BitVec.ofNat 32 s.slots.length)

/-- `none` is the panic of an index out of range. -/
def spawn (s : EntityStore) (authority : Authority) : EntityStore × Option EntityId :=
  let (s, index) := s.allocate
  match s.generations[index.toNat]? with
  | none => (s, none)
  | some gen =>
    let id : EntityId := ⟨index, gen⟩
    ({ s with slots := s.slots.set index.toNat (some ⟨id, authority, ∅, true⟩) }, some id)

def get (s : EntityStore) (id : EntityId) : Option Entity :=
  match s.slots[id.index.toNat]? with
  | some (some e) => if e.id.generation = id.generation ∧ e.active then some e else none
  | _ => none

def write (s : EntityStore) (id : EntityId) (e : Entity) : EntityStore :=
  { s with slots := s.slots.set id.index.toNat (some e) }

/-- The entity, and the store after another one is written through the reference. -/
def getMut (s : EntityStore) (id : EntityId) : Option (Entity × (Entity → EntityStore)) :=
  match s.slots[id.index.toNat]? with
  | some (some e) =>
    if e.id.generation = id.generation ∧ e.active then some (e, s.write id) else none
  | _ => none

/-- `none` is a panic: an index out of range, or a generation that overflows. -/
def destroy (mode : Overflow) (s : EntityStore) (id : EntityId) : EntityStore × Option Bool :=
  match s.slots[id.index.toNat]? with
  | some (some e) =>
    if e.id.generation = id.generation then
      let s' := { s with slots := s.slots.set id.index.toNat none, free := id.index :: s.free }
      match s.generations[id.index.toNat]?.bind (fun gen ↦ mode.add gen 1) with
      | none => (s', none)
      | some gen => ({ s' with generations := s.generations.set id.index.toNat gen }, some true)
    else (s, some false)
  | _ => (s, some false)

def setComponent (s : EntityStore) (id : EntityId) (name : String) (data : List UInt8) :
    EntityStore × Except String Unit :=
  match s.getMut id with
  | none => (s, .error "entity not found or stale")
  | some (e, write) => (write { e with components := e.components.insert name data }, .ok ())

def count (s : EntityStore) : ℕ := s.slots.countP (fun slot ↦ (slot.map (·.active)).getD false)

end EntityStore

def transfer (s : EntityStore) (id : EntityId) (expected next : Authority) :
    EntityStore × TransferOutcome :=
  match s.getMut id with
  | none => (s, .notFound)
  | some (e, write) =>
    if e.authority ≠ expected then (s, .refused (.ownerMismatch expected e.authority))
    else if e.authority ≠ .server ∧ next ≠ .server ∧ e.authority ≠ next then
      (s, .refused (.mustReleaseFirst e.authority next))
    else (write { e with authority := next }, .transferred e.authority next)

def ownerOf (s : EntityStore) (id : EntityId) : Option Authority := (s.get id).map (·.authority)

inductive Call
  | spawn (authority : Authority)
  | destroy (id : EntityId)
  | setComponent (id : EntityId) (name : String) (data : List UInt8)
  | transfer (id : EntityId) (expected next : Authority)
deriving DecidableEq

inductive Answer
  | spawned (id : EntityId)
  | destroyed (found : Bool)
  | written (result : Except String Unit)
  | transferred (outcome : TransferOutcome)
  | panicked

def step (mode : Overflow) (s : EntityStore) : Call → EntityStore × Answer
  | .spawn authority =>
    let (s, id) := s.spawn authority
    (s, id.elim .panicked .spawned)
  | .destroy id =>
    let (s, found) := s.destroy mode id
    (s, found.elim .panicked .destroyed)
  | .setComponent id name data =>
    let (s, result) := s.setComponent id name data
    (s, .written result)
  | .transfer id expected next =>
    let (s, outcome) := Store.transfer s id expected next
    (s, .transferred outcome)

end Aldivine.Entities.Store
