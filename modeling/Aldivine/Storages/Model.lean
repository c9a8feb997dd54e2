import Aldivine.Core.Basics
import Aldivine.Foundation.Locate
import Aldivine.Foundation.Machine
import Mathlib.Data.List.AList

namespace Aldivine.Storages.Model

open Foundation.Locate Foundation.Machine Core.PlayerId

/-- An item definition; the display name plays no part. -/
structure Item where
  defId : String
  weight : BitVec 32
  stackable : Bool
  maxStack : BitVec 32
  hasDurability : Bool
deriving DecidableEq

structure ItemStack where
  defId : String
  count : BitVec 32
  weightPerUnit : BitVec 32
  durability : Option UInt8
deriving DecidableEq

namespace ItemStack

def new (item : Item) (count : BitVec 32) : ItemStack where
  defId := item.defId
  count := count
  weightPerUnit := item.weight
  durability := if item.hasDurability then some 100 else none

def recount (s : ItemStack) (count : BitVec 32) : ItemStack := { s with count := count }

def totalWeight (mode : Overflow) (s : ItemStack) : Option (BitVec 32) :=
  mode.mul s.weightPerUnit s.count

end ItemStack

inductive StorageKind
  | player (id : AldivinePlayerId)
  | vehicle (id : UInt64)
  | property (id : UInt64)
  | custom (name : String)
deriving DecidableEq

inductive InventoryError
  | unknownItem (defId : String)
  | overWeight (adding total limit : BitVec 32)
  | overStack (item : String)
  | nestingTooDeep
  | insufficient (item : String) (want : BitVec 32)
deriving DecidableEq

def maxNesting : ℕ := 3

structure Inventory where
  kind : StorageKind
  weightLimit : BitVec 32
  slots : List ItemStack
  depth : ℕ
deriving DecidableEq

abbrev Result := Outcome InventoryError Unit

namespace Inventory

def totalWeight (mode : Overflow) (inv : Inventory) : Option (BitVec 32) :=
  mode.sumOf (ItemStack.totalWeight mode) inv.slots

def find (inv : Inventory) (defId : String) : Option (Located ItemStack) :=
  locate (·.defId == defId) inv.slots

/-- What the weight check of a grant compares with the limit: the weight that is added and the
total with it. -/
def weigh (mode : Overflow) (inv : Inventory) (item : Item) (count : BitVec 32) :
    Option (BitVec 32 × BitVec 32) := do
  let adding ← mode.mul item.weight count
  let current ← inv.totalWeight mode
  let total ← mode.add current adding
  return (adding, total)

/-- The end of a grant: a stack of its own. -/
def push (inv : Inventory) (item : Item) (defId : String) (count : BitVec 32) :
    Inventory × Result :=
  if count > item.maxStack then (inv, .err (.overStack defId))
  else ({ inv with slots := inv.slots ++ [.new item count] }, .ok ())

/-- The part of `give` that works on one storage. -/
def give (mode : Overflow) (inv : Inventory) (item : Item) (defId : String) (count : BitVec 32) :
    Inventory × Result :=
  match inv.weigh mode item count with
  | none => (inv, .panic)
  | some (adding, total) =>
    if total > inv.weightLimit then (inv, .err (.overWeight adding total inv.weightLimit))
    else if item.stackable then
      match inv.find defId with
      | none => inv.push item defId count
      | some r =>
        match mode.add r.found.count count with
        | none => (inv, .panic)
        | some newCount =>
          if newCount > item.maxStack then (inv, .err (.overStack defId))
          else ({ inv with slots := r.put (r.found.recount newCount) }, .ok ())
    else inv.push item defId count

/-- The part of `take` that works on one storage. -/
def take (inv : Inventory) (defId : String) (count : BitVec 32) : Inventory × Result :=
  match inv.find defId with
  | none => (inv, .err (.insufficient defId count))
  | some r =>
    if r.found.count < count then (inv, .err (.insufficient defId count))
    else
      let slots := r.put (r.found.recount (r.found.count - count))
      ({ inv with
          slots := if r.found.count - count = 0 then slots.filter (fun s ↦ s.count > 0) else slots },
        .ok ())

def Fits (mode : Overflow) (inv : Inventory) (item : Item) (count : BitVec 32) : Prop :=
  ∃ w ∈ inv.weigh mode item count, w.2 ≤ inv.weightLimit

instance (mode : Overflow) (inv : Inventory) (item : Item) (count : BitVec 32) :
    Decidable (inv.Fits mode item count) :=
  inferInstanceAs (Decidable (∃ w ∈ inv.weigh mode item count, w.2 ≤ inv.weightLimit))

inductive Grant (mode : Overflow) (inv : Inventory) (item : Item) (defId : String)
    (count : BitVec 32) : Inventory → Result → Prop
  | weighPanic (hw : inv.weigh mode item count = none) : Grant mode inv item defId count inv .panic
  | overWeight {e : InventoryError} (hfits : ¬inv.Fits mode item count) :
      Grant mode inv item defId count inv (.err e)
  | countPanic {r : Located ItemStack} (hfits : inv.Fits mode item count)
      (hs : item.stackable = true) (hf : inv.find defId = some r)
      (hadd : mode.add r.found.count count = none) : Grant mode inv item defId count inv .panic
  | overStack {r : Located ItemStack} {newCount : BitVec 32} {e : InventoryError}
      (hfits : inv.Fits mode item count) (hs : item.stackable = true)
      (hf : inv.find defId = some r) (hadd : mode.add r.found.count count = some newCount)
      (hmax : item.maxStack < newCount) : Grant mode inv item defId count inv (.err e)
  | stack {r : Located ItemStack} {newCount : BitVec 32} (hfits : inv.Fits mode item count)
      (hs : item.stackable = true) (hf : inv.find defId = some r)
      (hadd : mode.add r.found.count count = some newCount) (hmax : newCount ≤ item.maxStack) :
      Grant mode inv item defId count
        { inv with slots := r.put (r.found.recount newCount) } (.ok ())
  | pushOver {e : InventoryError} (hfits : inv.Fits mode item count)
      (hnew : item.stackable = true → inv.find defId = none) (hmax : item.maxStack < count) :
      Grant mode inv item defId count inv (.err e)
  | push (hfits : inv.Fits mode item count)
      (hnew : item.stackable = true → inv.find defId = none) (hmax : count ≤ item.maxStack) :
      Grant mode inv item defId count { inv with slots := inv.slots ++ [.new item count] } (.ok ())

variable {mode : Overflow} {inv : Inventory} {item : Item} {defId : String} {count : BitVec 32}

theorem push_grant (hfits : inv.Fits mode item count)
    (hnew : item.stackable = true → inv.find defId = none) :
    Grant mode inv item defId count (inv.push item defId count).1
      (inv.push item defId count).2 := by
  unfold Inventory.push
  split
  · exact .pushOver hfits hnew ‹_›
  · exact .push hfits hnew (BitVec.not_lt.mp ‹_›)

theorem give_grant :
    Grant mode inv item defId count (inv.give mode item defId count).1
      (inv.give mode item defId count).2 := by
  unfold give
  cases hw : inv.weigh mode item count with
  | none => exact .weighPanic hw
  | some w =>
    dsimp only
    split
    · refine .overWeight ?_
      intro hparts
      obtain ⟨w', hw', hle⟩ := hparts
      obtain rfl := Option.some.inj (hw.symm.trans hw')
      exact BitVec.not_le.mpr ‹_› hle
    have hfits : inv.Fits mode item count := ⟨w, hw, BitVec.not_lt.mp ‹_›⟩
    split
    · cases hf : inv.find defId with
      | none => exact push_grant hfits (fun _ ↦ hf)
      | some r =>
        dsimp only
        cases hadd : mode.add r.found.count count with
        | none => exact .countPanic hfits ‹_› hf hadd
        | some newCount =>
          dsimp only
          split
          · exact .overStack hfits ‹_› hf hadd ‹_›
          · exact .stack hfits ‹_› hf hadd (BitVec.not_lt.mp ‹_›)
    · exact push_grant hfits (fun hs ↦ absurd hs ‹_›)

def taken (r : Located ItemStack) (count : BitVec 32) : List ItemStack :=
  let slots := r.put (r.found.recount (r.found.count - count))
  if r.found.count - count = 0 then slots.filter (fun s ↦ s.count > 0) else slots

theorem take_cases (inv : Inventory) (defId : String) (count : BitVec 32) :
    (inv.take defId count = (inv, .err (.insufficient defId count)) ∧
      ∀ r, inv.find defId = some r → r.found.count < count) ∨
    ∃ r, inv.find defId = some r ∧ count ≤ r.found.count ∧
      inv.take defId count = ({ inv with slots := taken r count }, .ok ()) := by
  unfold take
  cases hf : inv.find defId with
  | none => exact .inl ⟨rfl, fun r hr ↦ by cases hr⟩
  | some r =>
    dsimp only
    split
    · refine .inl ⟨rfl, fun r' hr' ↦ ?_⟩
      obtain rfl := Option.some.inj hr'
      assumption
    · exact .inr ⟨r, rfl, BitVec.not_lt.mp ‹_›, rfl⟩

end Inventory

structure InventoryService where
  registry : AList (fun _ : String ↦ Item)
  storages : AList (fun _ : StorageKind ↦ Inventory)

namespace InventoryService

def new : InventoryService := ⟨∅, ∅⟩

def register (s : InventoryService) (item : Item) : InventoryService :=
  { s with registry := s.registry.insert item.defId item }

def inventory (s : InventoryService) (kind : StorageKind) (weightLimit : BitVec 32) : Inventory :=
  (s.storages.lookup kind).getD ⟨kind, weightLimit, [], 0⟩

def put (s : InventoryService) (kind : StorageKind) (inv : Inventory) : InventoryService :=
  { s with storages := s.storages.insert kind inv }

def storage (s : InventoryService) (kind : StorageKind) (weightLimit : BitVec 32) :
    InventoryService := s.put kind (s.inventory kind weightLimit)

def give (mode : Overflow) (s : InventoryService) (kind : StorageKind) (weightLimit : BitVec 32)
    (defId : String) (count : BitVec 32) : InventoryService × Result :=
  match s.registry.lookup defId with
  | none => (s, .err (.unknownItem defId))
  | some item =>
    let r := (s.inventory kind weightLimit).give mode item defId count
    (s.put kind r.1, r.2)

def take (s : InventoryService) (kind : StorageKind) (weightLimit : BitVec 32) (defId : String)
    (count : BitVec 32) : InventoryService × Result :=
  let r := (s.inventory kind weightLimit).take defId count
  (s.put kind r.1, r.2)

def transfer (mode : Overflow) (s : InventoryService) (source target : StorageKind)
    (weightLimit : BitVec 32) (defId : String) (count : BitVec 32) : InventoryService × Result :=
  let s := s.storage target weightLimit
  if (s.inventory target weightLimit).depth ≥ maxNesting then (s, .err .nestingTooDeep)
  else
    match s.take source weightLimit defId count with
    | (s, .ok ()) =>
      match s.give mode target weightLimit defId count with
      | (s, .err e) =>
        match s.give mode source weightLimit defId count with
        | (s, .panic) => (s, .panic)
        | (s, _) => (s, .err e)
      | r => r
    | r => r

/-- `count`: the size of the first stack. -/
def count (s : InventoryService) (kind : StorageKind) (defId : String) : BitVec 32 :=
  (((s.storages.lookup kind).bind (·.find defId)).map (·.found.count)).getD 0

end InventoryService

inductive Op
  | register (item : Item)
  | storage (kind : StorageKind) (weightLimit : BitVec 32)
  | give (kind : StorageKind) (weightLimit : BitVec 32) (defId : String) (count : BitVec 32)
  | take (kind : StorageKind) (weightLimit : BitVec 32) (defId : String) (count : BitVec 32)
  | transfer (source target : StorageKind) (weightLimit : BitVec 32) (defId : String)
      (count : BitVec 32)
deriving DecidableEq

def step (mode : Overflow) (s : InventoryService) : Op → InventoryService × Result
  | .register item => (s.register item, .ok ())
  | .storage kind weightLimit => (s.storage kind weightLimit, .ok ())
  | .give kind weightLimit defId count => s.give mode kind weightLimit defId count
  | .take kind weightLimit defId count => s.take kind weightLimit defId count
  | .transfer source target weightLimit defId count =>
    s.transfer mode source target weightLimit defId count

end Aldivine.Storages.Model
