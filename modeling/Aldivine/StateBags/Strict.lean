import Aldivine.Foundation.Execution
import Aldivine.Foundation.Fallible
import Aldivine.Foundation.Table
import Aldivine.StateBags.Model
import Std.Data.String.ToNat

namespace Aldivine.StateBags.Strict

open Foundation.Execution Foundation.Fallible Foundation.Machine Foundation.Table Foundation.Text
open Model hiding Call Reply Stepped step stepped

inductive BagScope
  | global
  | entity (id : BitVec 32)
  | player (id : BitVec 32)
  | localPlayer
deriving DecidableEq

def BagScope.bagId : BagScope → String
  | .global => "global"
  | .entity id => "entity:" ++ toString id.toNat
  | .player id => "player:" ++ toString id.toNat
  | .localPlayer => "localplayer"

inductive ScopeError
  | badName (name : String)
  | badKey (text : String)
  | state (e : StateError)
deriving DecidableEq

def maxStateKeyLen : ℕ := 128

def validateStateKey (key : String) : Except ScopeError Unit :=
  if key = "" then .error (.badKey "key is empty")
  else if (utf8 key).length > maxStateKeyLen then .error (.badKey "key too long")
  else if key.toList.contains (Char.ofNat 0) then .error (.badKey "key contains NUL")
  else if (utf8 key).length > maxKeyLen then .error (.badKey "key too long")
  else .ok ()

/-- The bags of the registry and the recorded owners, both under bag ids. -/
structure StrictBags where
  registry : AList (fun _ : String ↦ StateBag)
  owners : AList (fun _ : String ↦ OwnerId)

inductive Reply
  | done
  | written (seq : BitVec 64)
deriving DecidableEq

namespace StrictBags

def new : StrictBags := ⟨∅, ∅⟩

def create (s : StrictBags) (scope : BagScope) (owner : OwnerId) :
    StrictBags × Outcome ScopeError Reply :=
  let id := scope.bagId
  match s.owners.lookup id with
  | some existing =>
    if existing ≠ owner then (s, .err (.badKey ("bag " ++ id ++ " already owned")))
    else (s, .ok .done)
  | none =>
    let bag := (s.registry.lookup id).getD (.new id .ownerOnly)
    (⟨s.registry.insert id (bag.setOwner (some owner)), s.owners.insert id owner⟩, .ok .done)

def transfer (s : StrictBags) (scope : BagScope) (giver taker : OwnerId) :
    StrictBags × Outcome ScopeError Reply :=
  let id := scope.bagId
  if s.owners.lookup id = some giver then
    let registry := match s.registry.lookup id with
      | some bag => s.registry.insert id (bag.setOwner (some taker))
      | none => s.registry
    (⟨registry, s.owners.insert id taker⟩, .ok .done)
  else (s, .err (.state (.notOwner giver)))

def liftReply : Outcome StateError Model.Reply → Outcome ScopeError Reply
  | .ok (.written seq) => .ok (.written seq)
  | .ok _ => .ok .done
  | .err e => .err (.state e)
  | .panic => .panic

def set (mode : Overflow) (s : StrictBags) (scope : BagScope) (key : String) (value : Value)
    (writer : OwnerId) : StrictBags × Outcome ScopeError Reply :=
  match validateStateKey key with
  | .error e => (s, .err e)
  | .ok () =>
    match s.registry.lookup scope.bagId with
    | none => (s, .err (.badName scope.bagId))
    | some bag =>
      let (bag, effect) := bag.set mode key value writer
      ({ s with registry := s.registry.insert scope.bagId bag }, liftReply effect.1)

def get (s : StrictBags) (scope : BagScope) (key : String) : Option Value :=
  (s.registry.lookup scope.bagId).bind (·.get key)

def ownerOf (s : StrictBags) (scope : BagScope) : Option OwnerId := s.owners.lookup scope.bagId

end StrictBags

inductive Call
  | create (scope : BagScope) (owner : OwnerId)
  | transfer (scope : BagScope) (giver taker : OwnerId)
  | set (scope : BagScope) (key : String) (value : Value) (writer : OwnerId)

def Call.scope : Call → BagScope
  | .create scope _ => scope
  | .transfer scope _ _ => scope
  | .set scope _ _ _ => scope

def step (mode : Overflow) (s : StrictBags) : Call → StrictBags × Outcome ScopeError Reply
  | .create scope owner => s.create scope owner
  | .transfer scope giver taker => s.transfer scope giver taker
  | .set scope key value writer => s.set mode scope key value writer

section Limits

structure KeyWithin (key : String) : Prop where
  nonempty : key ≠ ""
  short : (utf8 key).length ≤ maxKeyLen
  noNul : Char.ofNat 0 ∉ key.toList

/-- A value `depth` levels down is within the limits on size, breadth and depth. -/
inductive Bounded : ℕ → Value → Prop
  | nil {depth} (h : depth ≤ maxDepth) : Bounded depth .nil
  | bool {depth} (h : depth ≤ maxDepth) (b : Bool) : Bounded depth (.bool b)
  | int {depth} (h : depth ≤ maxDepth) (n : BitVec 64) : Bounded depth (.int n)
  | float {depth} (h : depth ≤ maxDepth) (bits : BitVec 64) : Bounded depth (.float bits)
  | str {depth s} (h : depth ≤ maxDepth) (hlen : (utf8 s).length ≤ maxBlobLen) :
      Bounded depth (.str s)
  | bytes {depth} {b : List UInt8} (h : depth ≤ maxDepth) (hlen : b.length ≤ maxBlobLen) :
      Bounded depth (.bytes b)
  | array {depth items} (h : depth ≤ maxDepth) (hlen : items.length ≤ maxChildren)
      (hitems : ∀ v ∈ items, Bounded (depth + 1) v) : Bounded depth (.array items)
  | map {depth entries} (h : depth ≤ maxDepth) (hlen : entries.length ≤ maxChildren)
      (hkeys : ∀ e ∈ entries, KeyWithin e.1) (hvalues : ∀ e ∈ entries, Bounded (depth + 1) e.2) :
      Bounded depth (.map entries)

theorem keyWithin_of_validateKey {key : String} (h : validateKey key = .ok ()) :
    KeyWithin key := by
  unfold validateKey at h
  split at h
  · cases h
  · split at h
    · cases h
    · split at h
      · cases h
      · rename_i hne hlong hnul
        exact ⟨hne, Nat.not_lt.mp hlong, by simpa using hnul⟩

mutual

theorem bounded_of_validateAt (v : Value) (depth : ℕ) (h : v.validateAt depth = .ok ()) :
    Bounded depth v := by
  unfold Value.validateAt at h
  split at h
  · cases h
  · rename_i hdepth
    have hdepth := Nat.not_lt.mp hdepth
    cases v with
    | nil => exact .nil hdepth
    | bool b => exact .bool hdepth b
    | int n => exact .int hdepth n
    | float bits => exact .float hdepth bits
    | str s =>
      dsimp only at h
      split at h
      · cases h
      · rename_i hlen
        exact .str hdepth (Nat.not_lt.mp hlen)
    | bytes b =>
      dsimp only at h
      split at h
      · cases h
      · rename_i hlen
        exact .bytes hdepth (Nat.not_lt.mp hlen)
    | array items =>
      dsimp only at h
      split at h
      · cases h
      · rename_i hlen
        exact .array hdepth (Nat.not_lt.mp hlen) (bounded_of_validateItems items (depth + 1) h)
    | map entries =>
      dsimp only at h
      split at h
      · cases h
      · rename_i hlen
        obtain ⟨hkeys, hvalues⟩ := bounded_of_validateEntries entries (depth + 1) h
        exact .map hdepth (Nat.not_lt.mp hlen) hkeys hvalues

theorem bounded_of_validateItems (items : List Value) (depth : ℕ)
    (h : Value.validateItems items depth = .ok ()) : ∀ v ∈ items, Bounded depth v := by
  cases items with
  | nil => exact List.forall_mem_nil _
  | cons v items =>
    rw [Value.validateItems] at h
    obtain ⟨⟨⟩, hv, hitems⟩ := bind_eq_ok.mp h
    exact List.forall_mem_cons.mpr
      ⟨bounded_of_validateAt v depth hv, bounded_of_validateItems items depth hitems⟩

theorem bounded_of_validateEntries (entries : List (String × Value)) (depth : ℕ)
    (h : Value.validateEntries entries depth = .ok ()) :
    (∀ e ∈ entries, KeyWithin e.1) ∧ ∀ e ∈ entries, Bounded depth e.2 := by
  cases entries with
  | nil => exact ⟨List.forall_mem_nil _, List.forall_mem_nil _⟩
  | cons e entries =>
    obtain ⟨k, v⟩ := e
    rw [Value.validateEntries] at h
    obtain ⟨⟨⟩, hkey, h⟩ := bind_eq_ok.mp h
    obtain ⟨⟨⟩, hv, hentries⟩ := bind_eq_ok.mp h
    obtain ⟨hkeys, hvalues⟩ := bounded_of_validateEntries entries depth hentries
    exact ⟨List.forall_mem_cons.mpr ⟨keyWithin_of_validateKey hkey, hkeys⟩,
      List.forall_mem_cons.mpr ⟨bounded_of_validateAt v depth hv, hvalues⟩⟩

end

end Limits

section Laws

/-- The owner recorded for a scope is the one its bag enforces, and what is stored is within the
limits. -/
structure Consistent (s : StrictBags) : Prop where
  recorded : ∀ scope : BagScope, (s.registry.lookup scope.bagId).map (·.owner) =
    (s.ownerOf scope).map some
  enforced : ∀ (scope : BagScope) writer, s.ownerOf scope = some writer ↔
    ∃ bag, s.registry.lookup scope.bagId = some bag ∧ bag.checkWrite writer = .ok ()
  keys : ∀ scope key value, s.get scope key = some value → KeyWithin key
  values : ∀ scope key value, s.get scope key = some value → Bounded 0 value

def SameAt (s s' : StrictBags) (scope : BagScope) : Prop :=
  s'.registry.lookup scope.bagId = s.registry.lookup scope.bagId ∧
    s'.ownerOf scope = s.ownerOf scope

/-- A call panics only in `set`, when the bag's sequence is used up. -/
structure StepLaw (mode : Overflow) (s : StrictBags) (call : Call) : Prop where
  changed : (step mode s call).2 ≠ .panic → ∀ scope key,
    (step mode s call).1.get scope key ≠ s.get scope key →
      ∃ value writer seq, call = .set scope key value writer ∧
        (step mode s call).2 = .ok (.written seq) ∧ s.ownerOf scope = some writer
  failed : ∀ e, (step mode s call).2 = .err e → ∀ scope, SameAt s (step mode s call).1 scope
  isolated : ∀ scope, scope ≠ call.scope → SameAt s (step mode s call).1 scope
  returns : (step mode s call).2 = .panic → mode = .panics ∧
    ∃ bag, s.registry.lookup call.scope.bagId = some bag ∧ bag.seq.toNat + 1 = 2 ^ 64

end Laws

def BagScope.letter : BagScope → Char
  | .global => 'g'
  | .entity _ => 'e'
  | .player _ => 'p'
  | .localPlayer => 'l'

theorem bagId_head (scope : BagScope) : scope.bagId.toList.head? = some scope.letter := by
  cases scope with
  | global => rfl
  | entity id =>
    rw [BagScope.bagId, String.toList_append, List.head?_append]
    rfl
  | player id =>
    rw [BagScope.bagId, String.toList_append, List.head?_append]
    rfl
  | localPlayer => rfl

theorem bagId_injective : Function.Injective BagScope.bagId := by
  have hnumber (first second : BitVec 32) (kind : String)
      (h : kind ++ toString first.toNat = kind ++ toString second.toNat) : first = second :=
    BitVec.eq_of_toNat_eq (Nat.repr_injective ((String.append_right_inj _).mp h))
  intro a b h
  have hletter : a.letter = b.letter := by
    have hhead := congrArg (fun id ↦ id.toList.head?) h
    simp only [bagId_head] at hhead
    exact Option.some.inj hhead
  cases a with
  | global =>
    cases b with
    | global => rfl
    | entity _ | player _ | localPlayer => simp [BagScope.letter] at hletter
  | entity first =>
    cases b with
    | entity second => exact congrArg _ (hnumber first second _ h)
    | global | player _ | localPlayer => simp [BagScope.letter] at hletter
  | player first =>
    cases b with
    | player second => exact congrArg _ (hnumber first second _ h)
    | global | entity _ | localPlayer => simp [BagScope.letter] at hletter
  | localPlayer =>
    cases b with
    | localPlayer => rfl
    | global | entity _ | player _ => simp [BagScope.letter] at hletter

section Soundness

/-- A scope has no bag and no owner, or a bag that only its recorded owner may write. -/
inductive SoundAt : Option StateBag → Option OwnerId → Prop
  | absent : SoundAt none none
  | present {bag owner} (hpolicy : bag.policy = .ownerOnly) (howner : bag.owner = some owner)
      (hvalues : ∀ (key : String) slot, bag.values[key]? = some slot →
        KeyWithin key ∧ Bounded 0 slot.1) : SoundAt (some bag) (some owner)

def Sound (s : StrictBags) : Prop :=
  ∀ scope : BagScope, SoundAt (s.registry.lookup scope.bagId) (s.ownerOf scope)

variable {s : StrictBags} {bag : StateBag} {owner writer : OwnerId}

theorem SoundAt.enforces (h : SoundAt (some bag) (some owner)) :
    bag.checkWrite writer = .ok () ↔ owner = writer := by
  cases h with
  | present hpolicy howner hvalues =>
    rw [StateBag.checkWrite, hpolicy, howner]
    dsimp only
    split
    · rename_i heq
      exact iff_of_true rfl (Option.some.inj heq)
    · rename_i hne
      refine iff_of_false (by intro h; cases h) ?_
      intro heq
      exact hne (congrArg some heq)

theorem SoundAt.owned {owner? : Option OwnerId} (h : SoundAt (some bag) owner?)
    (hwrite : bag.checkWrite writer = .ok ()) : owner? = some writer := by
  cases h with
  | present hpolicy howner hvalues =>
    exact congrArg some ((SoundAt.present hpolicy howner hvalues).enforces.mp hwrite)

theorem Sound.absent_of_unowned (h : Sound s) {scope : BagScope} (hfree : s.ownerOf scope = none) :
    s.registry.lookup scope.bagId = none := by
  have hscope := h scope
  rw [hfree] at hscope
  generalize s.registry.lookup scope.bagId = bag? at hscope ⊢
  cases hscope with
  | absent => rfl

theorem consistent_of_sound (h : Sound s) : Consistent s := by
  have hstored (scope : BagScope) (key : String) (value : Value)
      (hget : s.get scope key = some value) : KeyWithin key ∧ Bounded 0 value := by
    obtain ⟨bag, hbag, hvalue⟩ := Option.bind_eq_some_iff.mp hget
    obtain ⟨slot, hslot, rfl⟩ := Option.map_eq_some_iff.mp hvalue
    have hscope := h scope
    rw [hbag] at hscope
    generalize s.ownerOf scope = owner? at hscope
    cases hscope with
    | present hpolicy howner hvalues => exact hvalues key slot hslot
  refine ⟨fun scope ↦ ?_, fun scope writer ↦ ?_, fun scope key value hget ↦ ?_,
    fun scope key value hget ↦ ?_⟩
  · have hscope := h scope
    generalize s.registry.lookup scope.bagId = bag? at hscope ⊢
    generalize s.ownerOf scope = owner? at hscope ⊢
    cases hscope with
    | absent => rfl
    | present hpolicy howner hvalues => exact congrArg some howner
  · have hscope := h scope
    generalize s.registry.lookup scope.bagId = bag? at hscope ⊢
    generalize s.ownerOf scope = owner? at hscope ⊢
    constructor
    · rintro rfl
      cases hscope with
      | present hpolicy howner hvalues =>
        exact ⟨_, rfl, (SoundAt.present hpolicy howner hvalues).enforces.mpr rfl⟩
    · rintro ⟨bag, rfl, hwrite⟩
      exact hscope.owned hwrite
  · exact (hstored scope key value hget).1
  · exact (hstored scope key value hget).2

end Soundness

section Steps

variable {mode : Overflow} {s : StrictBags} {call : Call}

inductive Stepped (mode : Overflow) (s : StrictBags) :
    Call → StrictBags × Outcome ScopeError Reply → Prop
  | kept {call reply} (hreply : reply ≠ .panic) : Stepped mode s call (s, reply)
  | created {scope owner} (hfree : s.ownerOf scope = none) :
      Stepped mode s (.create scope owner)
        (⟨s.registry.insert scope.bagId
            (((s.registry.lookup scope.bagId).getD (.new scope.bagId .ownerOnly)).setOwner
              (some owner)),
          s.owners.insert scope.bagId owner⟩, .ok .done)
  | transferred {scope giver taker bag} (howner : s.ownerOf scope = some giver)
      (hbag : s.registry.lookup scope.bagId = some bag) :
      Stepped mode s (.transfer scope giver taker)
        (⟨s.registry.insert scope.bagId (bag.setOwner (some taker)),
          s.owners.insert scope.bagId taker⟩, .ok .done)
  | refused {scope key value writer bag e} (hbag : s.registry.lookup scope.bagId = some bag) :
      Stepped mode s (.set scope key value writer)
        (⟨s.registry.insert scope.bagId bag, s.owners⟩, .err e)
  | written {scope key value writer bag replicated seq}
      (hbag : s.registry.lookup scope.bagId = some bag)
      (howner : bag.checkWrite writer = .ok ()) (hkey : validateKey key = .ok ())
      (hvalue : value.validate = .ok ()) :
      Stepped mode s (.set scope key value writer)
        (⟨s.registry.insert scope.bagId
            { bag with seq := seq, values := bag.values.insert key (value, replicated) },
          s.owners⟩, .ok (.written seq))
  | panicked {scope key value writer bag replicated}
      (hbag : s.registry.lookup scope.bagId = some bag)
      (howner : bag.checkWrite writer = .ok ()) (hkey : validateKey key = .ok ())
      (hvalue : value.validate = .ok ()) (hseq : mode.add bag.seq 1 = none) :
      Stepped mode s (.set scope key value writer)
        (⟨s.registry.insert scope.bagId
            { bag with values := bag.values.insert key (value, replicated) },
          s.owners⟩, .panic)

theorem stepped_set (scope : BagScope) (key : String) (value : Value) (writer : OwnerId) :
    Stepped mode s (.set scope key value writer) (s.set mode scope key value writer) := by
  unfold StrictBags.set
  split
  · exact .kept (by intro h; cases h)
  · split
    · exact .kept (by intro h; cases h)
    · rename_i bag hbag
      have hset := Model.stepped mode bag (.set key value writer)
      rw [Model.step] at hset
      generalize bag.set mode key value writer = r at hset
      cases hset with
      | refused hno => exact .refused hbag
      | written hok hseq =>
        obtain ⟨⟨⟩, howner, hok⟩ := bind_eq_ok.mp hok
        obtain ⟨⟨⟩, hkey, hvalue⟩ := bind_eq_ok.mp hok
        exact .written hbag howner hkey hvalue
      | writePanic hok hseq =>
        obtain ⟨⟨⟩, howner, hok⟩ := bind_eq_ok.mp hok
        obtain ⟨⟨⟩, hkey, hvalue⟩ := bind_eq_ok.mp hok
        exact .panicked hbag howner hkey hvalue hseq

theorem stepped (mode : Overflow) (hsound : Sound s) (call : Call) :
    Stepped mode s call (step mode s call) := by
  cases call with
  | create scope owner =>
    simp only [step, StrictBags.create]
    split
    · split
      · exact .kept (by intro h; cases h)
      · exact .kept (by intro h; cases h)
    · rename_i hfree
      exact .created hfree
  | transfer scope giver taker =>
    simp only [step, StrictBags.transfer]
    split
    · rename_i howner
      obtain ⟨bag, hbag, -⟩ := ((consistent_of_sound hsound).enforced scope giver).mp howner
      rw [hbag]
      exact .transferred howner hbag
    · exact .kept (by intro h; cases h)
  | set scope key value writer => exact stepped_set scope key value writer

theorem sameAt_of_ne {scope other : BagScope} {bag : StateBag} {owners : AList (fun _ ↦ OwnerId)}
    (hne : other ≠ scope) (howners : owners.lookup other.bagId = s.owners.lookup other.bagId) :
    SameAt s ⟨s.registry.insert scope.bagId bag, owners⟩ other :=
  ⟨AList.lookup_insert_ne (bagId_injective.ne hne), howners⟩

theorem lookup_owners_ne {scope other : BagScope} {owner : OwnerId} (hne : other ≠ scope) :
    (s.owners.insert scope.bagId owner).lookup other.bagId = s.owners.lookup other.bagId :=
  AList.lookup_insert_ne (bagId_injective.ne hne)

theorem step_isolated (mode : Overflow) (hsound : Sound s) (call : Call) (other : BagScope)
    (hne : other ≠ call.scope) : SameAt s (step mode s call).1 other := by
  have hstep := stepped mode hsound call
  generalize step mode s call = r at hstep
  cases hstep with
  | kept hreply => exact ⟨rfl, rfl⟩
  | created hfree => exact sameAt_of_ne hne (lookup_owners_ne hne)
  | transferred howner hbag => exact sameAt_of_ne hne (lookup_owners_ne hne)
  | refused hbag => exact sameAt_of_ne hne rfl
  | written hbag howner hkey hvalue => exact sameAt_of_ne hne rfl
  | panicked hbag howner hkey hvalue hseq => exact sameAt_of_ne hne rfl

theorem soundAt_written {bag bag' : StateBag} {owner? : Option OwnerId} {key : String}
    {value : Value} {replicated : Bool} (h : SoundAt (some bag) owner?)
    (hkey : validateKey key = .ok ()) (hvalue : value.validate = .ok ())
    (hpolicy' : bag'.policy = bag.policy) (howner' : bag'.owner = bag.owner)
    (hvalues' : bag'.values = bag.values.insert key (value, replicated)) :
    SoundAt (some bag') owner? := by
  cases h with
  | present hpolicy howner hvalues =>
    refine .present (hpolicy'.trans hpolicy) (howner'.trans howner) (fun k slot hslot ↦ ?_)
    rw [hvalues', Std.ExtTreeMap.getElem?_insert] at hslot
    simp only [Std.compare_eq_iff_eq] at hslot
    split at hslot
    · subst_vars
      obtain rfl := Option.some.inj hslot
      exact ⟨keyWithin_of_validateKey hkey, bounded_of_validateAt value 0 hvalue⟩
    · exact hvalues k slot hslot

theorem soundAt_insert {scope : BagScope} {bag : StateBag} {owner? : Option OwnerId}
    {owners : AList (fun _ ↦ OwnerId)} (h : SoundAt (some bag) owner?)
    (howners : owners.lookup scope.bagId = owner?) :
    SoundAt ((s.registry.insert scope.bagId bag).lookup scope.bagId)
      (StrictBags.ownerOf ⟨s.registry.insert scope.bagId bag, owners⟩ scope) := by
  rw [AList.lookup_insert, StrictBags.ownerOf, howners]
  exact h

theorem step_sound (mode : Overflow) (hsound : Sound s) (call : Call) :
    Sound (step mode s call).1 := by
  intro other
  by_cases hne : other ≠ call.scope
  · obtain ⟨hbag, howner⟩ := step_isolated mode hsound call other hne
    rw [hbag, howner]
    exact hsound other
  · obtain rfl := not_not.mp hne
    have hscope := hsound call.scope
    have hstep := stepped mode hsound call
    generalize step mode s call = r at hstep
    cases hstep with
    | kept hreply => exact hscope
    | @created scope owner hfree =>
      refine soundAt_insert ?_ (AList.lookup_insert _)
      rw [hsound.absent_of_unowned hfree]
      refine .present rfl rfl (fun key slot hslot ↦ ?_)
      cases hslot.symm.trans Std.ExtTreeMap.getElem?_empty
    | @transferred scope giver taker bag howner hbag =>
      refine soundAt_insert ?_ (AList.lookup_insert _)
      change SoundAt (s.registry.lookup scope.bagId) (s.ownerOf scope) at hscope
      rw [hbag, howner] at hscope
      cases hscope with
      | present hpolicy howner hvalues => exact .present hpolicy rfl hvalues
    | @refused scope key value writer bag e hbag =>
      change SoundAt (s.registry.lookup scope.bagId) (s.ownerOf scope) at hscope
      rw [hbag] at hscope
      exact soundAt_insert hscope rfl
    | @written scope key value writer bag replicated seq hbag howner hkey hvalue =>
      change SoundAt (s.registry.lookup scope.bagId) (s.ownerOf scope) at hscope
      rw [hbag] at hscope
      exact soundAt_insert (soundAt_written hscope hkey hvalue rfl rfl rfl) rfl
    | @panicked scope key value writer bag replicated hbag howner hkey hvalue hseq =>
      change SoundAt (s.registry.lookup scope.bagId) (s.ownerOf scope) at hscope
      rw [hbag] at hscope
      exact soundAt_insert (soundAt_written hscope hkey hvalue rfl rfl rfl) rfl

theorem sameAt_reinsert {scope : BagScope} {bag : StateBag}
    (hbag : s.registry.lookup scope.bagId = some bag) (other : BagScope) :
    SameAt s ⟨s.registry.insert scope.bagId bag, s.owners⟩ other := by
  refine ⟨?_, rfl⟩
  rw [lookup_insert_ite]
  split
  · rename_i heq
    rw [heq]
    exact hbag.symm
  · rfl

theorem SameAt.get_eq {s' : StrictBags} {scope : BagScope} (h : SameAt s s' scope) (key : String) :
    s'.get scope key = s.get scope key := by
  rw [StrictBags.get, StrictBags.get, h.1]

theorem get_insert {scope : BagScope} {bag : StateBag} {key : String}
    {owners : AList (fun _ ↦ OwnerId)} :
    StrictBags.get ⟨s.registry.insert scope.bagId bag, owners⟩ scope key = bag.get key := by
  rw [StrictBags.get, AList.lookup_insert]
  rfl

theorem get_written {scope : BagScope} {bag bag' : StateBag} {key other : String} {value : Value}
    {replicated : Bool} {owners : AList (fun _ ↦ OwnerId)}
    (hbag : s.registry.lookup scope.bagId = some bag)
    (hvalues : bag'.values = bag.values.insert key (value, replicated)) (hne : other ≠ key) :
    StrictBags.get ⟨s.registry.insert scope.bagId bag', owners⟩ scope other =
      s.get scope other := by
  rw [get_insert, StrictBags.get, hbag, Option.bind_some, StateBag.get, StateBag.get, hvalues,
    Std.ExtTreeMap.getElem?_insert]
  simp only [Std.compare_eq_iff_eq]
  rw [if_neg (Ne.symm hne)]

theorem step_changed (mode : Overflow) (hsound : Sound s) (call : Call)
    (hreturns : (step mode s call).2 ≠ .panic) (scope : BagScope) (key : String)
    (hchange : (step mode s call).1.get scope key ≠ s.get scope key) :
    ∃ value writer seq, call = .set scope key value writer ∧
      (step mode s call).2 = .ok (.written seq) ∧ s.ownerOf scope = some writer := by
  have hhere : scope = call.scope := by
    by_contra hne
    exact hchange ((step_isolated mode hsound call scope hne).get_eq key)
  subst hhere
  have hscope := hsound call.scope
  have hstep := stepped mode hsound call
  generalize step mode s call = r at hstep hreturns hchange ⊢
  cases hstep with
  | kept hreply => exact absurd rfl hchange
  | @created scope owner hfree =>
    have habsent := hsound.absent_of_unowned hfree
    have hbefore : s.get scope key = none := by
      rw [StrictBags.get, habsent]
      rfl
    rw [habsent] at hchange
    refine absurd (get_insert.trans ?_) hchange
    exact (congrArg (Option.map _) Std.ExtTreeMap.getElem?_empty).trans hbefore.symm
  | @transferred scope giver taker bag howner hbag =>
    have hbefore : s.get scope key = bag.get key := by
      rw [StrictBags.get, hbag]
      rfl
    refine absurd (get_insert.trans ?_) hchange
    exact hbefore.symm
  | @refused scope key' value writer bag e hbag =>
    exact absurd ((sameAt_reinsert hbag scope).get_eq key) hchange
  | @written scope key' value writer bag replicated seq hbag howner hkey hvalue =>
    have hkeys : key = key' := by
      by_contra hne
      exact hchange (get_written hbag rfl hne)
    subst hkeys
    change SoundAt (s.registry.lookup scope.bagId) (s.ownerOf scope) at hscope
    rw [hbag] at hscope
    exact ⟨value, writer, seq, rfl, rfl, hscope.owned howner⟩
  | panicked hbag howner hkey hvalue hseq => exact absurd rfl hreturns

theorem step_law (mode : Overflow) (hsound : Sound s) (call : Call) : StepLaw mode s call := by
  refine ⟨step_changed mode hsound call, ?_, step_isolated mode hsound call, ?_⟩
  · intro e hfailed
    have hstep := stepped mode hsound call
    generalize step mode s call = r at hstep hfailed
    cases hstep with
    | kept hreply => exact fun _ ↦ ⟨rfl, rfl⟩
    | created hfree => cases hfailed
    | transferred howner hbag => cases hfailed
    | refused hbag => exact sameAt_reinsert hbag
    | written hbag howner hkey hvalue => cases hfailed
    | panicked hbag howner hkey hvalue hseq => cases hfailed
  · intro hpanic
    have hstep := stepped mode hsound call
    generalize step mode s call = r at hstep hpanic
    cases hstep with
    | kept hreply => exact absurd hpanic hreply
    | created hfree => cases hpanic
    | transferred howner hbag => cases hpanic
    | refused hbag => cases hpanic
    | written hbag howner hkey hvalue => cases hpanic
    | @panicked scope key value writer bag replicated hbag howner hkey hvalue hseq =>
      obtain ⟨hfull, hmode⟩ := add_one_eq_none hseq
      exact ⟨hmode, bag, hbag, hfull⟩

theorem run_sound (mode : Overflow) (calls : List Call) : Sound (run (step mode) .new calls) := by
  have hnew : Sound .new := fun _ ↦ .absent
  refine invariant_all (I := Sound) (fun s call hsound ↦ ?_) hnew calls
  exact step_sound mode hsound call

end Steps

/-- Ownership in strict bags: in every run the records agree with the bags, what is stored is within
the limits, and every call keeps to its scope, changes a value only for the owner, and changes
nothing if it fails. -/
theorem strict_bags_owned (mode : Overflow) (calls : List Call) :
    Function.Injective BagScope.bagId ∧
      (∀ before, before <+: calls → Consistent (run (step mode) .new before)) ∧
      ∀ x ∈ trace (step mode) .new calls, StepLaw mode x.1 x.2 := by
  refine ⟨bagId_injective, fun before _ ↦ consistent_of_sound (run_sound mode before), ?_⟩
  intro x hx
  obtain ⟨before, after, -, hstate⟩ := mem_trace hx
  rw [hstate]
  exact step_law mode (run_sound mode before) x.2

end Aldivine.StateBags.Strict
