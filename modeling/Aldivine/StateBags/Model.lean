import Aldivine.Foundation.Machine
import Aldivine.Foundation.Text

namespace Aldivine.StateBags.Model

open Foundation.Machine Foundation.Text Std

abbrev OwnerId := UInt64

def maxKeyLen : ℕ := 64
def maxBlobLen : ℕ := 65536
def maxChildren : ℕ := 1024
def maxDepth : ℕ := 16

/-- Integers are `i64` words, floats their bit patterns; a map is listed in its keys' order. -/
inductive Value
  | nil
  | bool (b : Bool)
  | int (n : BitVec 64)
  | float (bits : BitVec 64)
  | str (s : String)
  | bytes (b : List UInt8)
  | array (items : List Value)
  | map (entries : List (String × Value))

inductive StateError
  | badKey (text : String)
  | tooLarge
  | tooManyChildren
  | tooDeep
  | notOwner (writer : OwnerId)
  | noSuchHandler
deriving DecidableEq

def validateKey (key : String) : Except StateError Unit :=
  if key = "" then .error (.badKey "key is empty")
  else if (utf8 key).length > maxKeyLen then .error (.badKey "key too long")
  else if key.toList.contains (Char.ofNat 0) then .error (.badKey "key contains NUL")
  else .ok ()

namespace Value

mutual

def validateAt (v : Value) (depth : ℕ) : Except StateError Unit :=
  if depth > maxDepth then .error .tooDeep
  else
    match v with
    | .str s => if (utf8 s).length > maxBlobLen then .error .tooLarge else .ok ()
    | .bytes b => if b.length > maxBlobLen then .error .tooLarge else .ok ()
    | .array items =>
      if items.length > maxChildren then .error .tooManyChildren
      else validateItems items (depth + 1)
    | .map entries =>
      if entries.length > maxChildren then .error .tooManyChildren
      else validateEntries entries (depth + 1)
    | _ => .ok ()

def validateItems : List Value → ℕ → Except StateError Unit
  | [], _ => .ok ()
  | v :: items, depth => do
    validateAt v depth
    validateItems items depth

def validateEntries : List (String × Value) → ℕ → Except StateError Unit
  | [], _ => .ok ()
  | (k, v) :: entries, depth => do
    validateKey k
    validateAt v depth
    validateEntries entries depth

end

def validate (v : Value) : Except StateError Unit := v.validateAt 0

end Value

inductive WritePolicy
  | open
  | ownerOnly
deriving DecidableEq

structure ChangeEvent where
  bag : String
  key : String
  old : Option Value
  new : Option Value
  seq : BitVec 64

abbrev Delivery := BitVec 64 × ChangeEvent

/-- A handler is known by the key it listens to; what it does with its events is its own affair. -/
structure StateBag where
  id : String
  policy : WritePolicy
  owner : Option OwnerId
  seq : BitVec 64
  values : ExtTreeMap String (Value × Bool)
  handlers : ExtTreeMap (BitVec 64) (Option String)
  nextHandler : BitVec 64

inductive Reply
  | written (seq : BitVec 64)
  | flagged
  | deleted (existed : Bool)
  | owned
deriving DecidableEq

abbrev Effect := Outcome StateError Reply × List Delivery

namespace StateBag

def new (id : String) (policy : WritePolicy) : StateBag := ⟨id, policy, none, 0, ∅, ∅, 0⟩

def setOwner (b : StateBag) (owner : Option OwnerId) : StateBag := { b with owner := owner }

def get (b : StateBag) (key : String) : Option Value := b.values[key]?.map (·.1)

def checkWrite (b : StateBag) (writer : OwnerId) : Except StateError Unit :=
  match b.policy with
  | .open => .ok ()
  | .ownerOnly => if b.owner = some writer then .ok () else .error (.notOwner writer)

/-- The handlers that listen to the key, in the order of their ids. -/
def dispatch (b : StateBag) (event : ChangeEvent) : List Delivery :=
  (b.handlers.toList.filter (fun h ↦ h.2.all (· == event.key))).map (fun h ↦ (h.1, event))

/-- The value is in place before the sequence overflows, the event is not. -/
def apply (mode : Overflow) (b : StateBag) (key : String) (value : Value) (replicated : Bool) :
    StateBag × Effect :=
  let old := b.get key
  let b := { b with values := b.values.insert key (value, replicated) }
  match mode.add b.seq 1 with
  | none => (b, .panic, [])
  | some seq =>
    let b := { b with seq := seq }
    (b, .ok (.written seq), b.dispatch ⟨b.id, key, old, some value, seq⟩)

def set (mode : Overflow) (b : StateBag) (key : String) (value : Value) (writer : OwnerId) :
    StateBag × Effect :=
  match (do b.checkWrite writer; validateKey key; value.validate) with
  | .error e => (b, .err e, [])
  | .ok () => b.apply mode key value ((b.values[key]?.map (·.2)).getD true)

def setReplicated (mode : Overflow) (b : StateBag) (key : String) (replicated : Bool)
    (writer : OwnerId) : StateBag × Effect :=
  match (do b.checkWrite writer; validateKey key) with
  | .error e => (b, .err e, [])
  | .ok () =>
    match b.values[key]? with
    | some slot => ({ b with values := b.values.insert key (slot.1, replicated) }, .ok .flagged, [])
    | none =>
      let b := { b with values := b.values.insert key (.nil, replicated) }
      match mode.add b.seq 1 with
      | none => (b, .panic, [])
      | some seq => ({ b with seq := seq }, .ok .flagged, [])

def delete (mode : Overflow) (b : StateBag) (key : String) (writer : OwnerId) :
    StateBag × Effect :=
  match (do b.checkWrite writer; validateKey key) with
  | .error e => (b, .err e, [])
  | .ok () =>
    match b.values[key]? with
    | none => (b, .ok (.deleted false), [])
    | some _ =>
      let b := { b with values := b.values.erase key }
      match mode.add b.seq 1 with
      | none => (b, .panic, [])
      | some seq =>
        let b := { b with seq := seq }
        (b, .ok (.deleted true), b.dispatch ⟨b.id, key, none, none, seq⟩)

def snapshotReplicated (b : StateBag) : List (String × Value) :=
  (b.values.toList.filter (fun e ↦ e.2.2)).map (fun e ↦ (e.1, e.2.1))

def onChange (mode : Overflow) (b : StateBag) (keyFilter : Option String) :
    StateBag × Outcome StateError (BitVec 64) :=
  match keyFilter.elim (.ok ()) validateKey with
  | .error e => (b, .err e)
  | .ok () =>
    match mode.add b.nextHandler 1 with
    | none => (b, .panic)
    | some next =>
      ({ b with nextHandler := next, handlers := b.handlers.insert b.nextHandler keyFilter },
        .ok b.nextHandler)

def removeHandler (b : StateBag) (id : BitVec 64) : StateBag × Except StateError Unit :=
  if id ∈ b.handlers then ({ b with handlers := b.handlers.erase id }, .ok ())
  else (b, .error .noSuchHandler)

end StateBag

inductive Call
  | set (key : String) (value : Value) (writer : OwnerId)
  | setReplicated (key : String) (replicated : Bool) (writer : OwnerId)
  | delete (key : String) (writer : OwnerId)
  | setOwner (owner : Option OwnerId)

def step (mode : Overflow) (b : StateBag) : Call → StateBag × Effect
  | .set key value writer => b.set mode key value writer
  | .setReplicated key replicated writer => b.setReplicated mode key replicated writer
  | .delete key writer => b.delete mode key writer
  | .setOwner owner => (b.setOwner owner, .ok .owned, [])

def Accepts (b : StateBag) : Call → Prop
  | .set key value writer =>
    (do b.checkWrite writer; validateKey key; value.validate : Except StateError Unit) = .ok ()
  | .setReplicated key _ writer =>
    (do b.checkWrite writer; validateKey key : Except StateError Unit) = .ok ()
  | .delete key writer =>
    (do b.checkWrite writer; validateKey key : Except StateError Unit) = .ok ()
  | .setOwner _ => True

inductive Stepped (mode : Overflow) (b : StateBag) : Call → StateBag × Effect → Prop
  | refused {call e} (hno : ¬Accepts b call) : Stepped mode b call (b, .err e, [])
  | written {key value writer replicated seq} (hok : Accepts b (.set key value writer))
      (hseq : mode.add b.seq 1 = some seq) :
      Stepped mode b (.set key value writer)
        ({ b with seq := seq, values := b.values.insert key (value, replicated) },
          .ok (.written seq), b.dispatch ⟨b.id, key, b.get key, some value, seq⟩)
  | writePanic {key value writer replicated} (hok : Accepts b (.set key value writer))
      (hseq : mode.add b.seq 1 = none) :
      Stepped mode b (.set key value writer)
        ({ b with values := b.values.insert key (value, replicated) }, .panic, [])
  | flagged {key replicated writer slot} (hok : Accepts b (.setReplicated key replicated writer))
      (hslot : b.values[key]? = some slot) :
      Stepped mode b (.setReplicated key replicated writer)
        ({ b with values := b.values.insert key (slot.1, replicated) }, .ok .flagged, [])
  | made {key replicated writer seq} (hok : Accepts b (.setReplicated key replicated writer))
      (hslot : b.values[key]? = none) (hseq : mode.add b.seq 1 = some seq) :
      Stepped mode b (.setReplicated key replicated writer)
        ({ b with seq := seq, values := b.values.insert key (.nil, replicated) }, .ok .flagged, [])
  | makePanic {key replicated writer} (hok : Accepts b (.setReplicated key replicated writer))
      (hslot : b.values[key]? = none) (hseq : mode.add b.seq 1 = none) :
      Stepped mode b (.setReplicated key replicated writer)
        ({ b with values := b.values.insert key (.nil, replicated) }, .panic, [])
  | missing {key writer} (hok : Accepts b (.delete key writer)) (hslot : b.values[key]? = none) :
      Stepped mode b (.delete key writer) (b, .ok (.deleted false), [])
  | deleted {key writer slot seq} (hok : Accepts b (.delete key writer))
      (hslot : b.values[key]? = some slot) (hseq : mode.add b.seq 1 = some seq) :
      Stepped mode b (.delete key writer)
        ({ b with seq := seq, values := b.values.erase key }, .ok (.deleted true),
          b.dispatch ⟨b.id, key, none, none, seq⟩)
  | deletePanic {key writer slot} (hok : Accepts b (.delete key writer))
      (hslot : b.values[key]? = some slot) (hseq : mode.add b.seq 1 = none) :
      Stepped mode b (.delete key writer) ({ b with values := b.values.erase key }, .panic, [])
  | owned {owner} : Stepped mode b (.setOwner owner) (b.setOwner owner, .ok .owned, [])

theorem stepped (mode : Overflow) (b : StateBag) (call : Call) :
    Stepped mode b call (step mode b call) := by
  cases call with
  | set key value writer =>
    simp only [step, StateBag.set]
    split
    · rename_i e he
      exact .refused (fun hok ↦ by cases he.symm.trans hok)
    · rename_i hok
      unfold StateBag.apply
      cases hseq : mode.add b.seq 1 with
      | none =>
        simp only [hseq]
        exact .writePanic hok hseq
      | some seq =>
        simp only [hseq]
        exact .written hok hseq
  | setReplicated key replicated writer =>
    simp only [step, StateBag.setReplicated]
    split
    · rename_i e he
      exact .refused (fun hok ↦ by cases he.symm.trans hok)
    · rename_i hok
      cases hslot : b.values[key]? with
      | some slot => exact .flagged hok hslot
      | none =>
        cases hseq : mode.add b.seq 1 with
        | none => exact .makePanic hok hslot hseq
        | some seq => exact .made hok hslot hseq
  | delete key writer =>
    simp only [step, StateBag.delete]
    split
    · rename_i e he
      exact .refused (fun hok ↦ by cases he.symm.trans hok)
    · rename_i hok
      cases hslot : b.values[key]? with
      | none => exact .missing hok hslot
      | some slot =>
        cases hseq : mode.add b.seq 1 with
        | none => exact .deletePanic hok hslot hseq
        | some seq => exact .deleted hok hslot hseq
  | setOwner owner => exact .owned

end Aldivine.StateBags.Model
