import Aldivine.Foundation.Doubles
import Aldivine.Foundation.Execution

namespace Aldivine.Javascript.Timers

open Foundation

inductive Kind
  | timeout
  | interval
deriving DecidableEq

/-- The root under which a callback is kept alive. Each call that hands one over makes a new root,
and roots are numbered in the order they are made. -/
abbrev RootedFn := ℕ

structure TimerEntry where
  kind : Kind
  due : ℕ
  period : Option ℕ
  cb : RootedFn
deriving DecidableEq

def saturatingAdd (a b : ℕ) : ℕ := min (a + b) (2 ^ 64 - 1)

/-- The timers of a runtime, with what goes on in it: the roots made so far, the callbacks collected
by the tick in progress of which the first is running, how many they were, and all calls made, each
with the clock at the time. -/
structure JsState where
  clock : ℕ
  timers : List TimerEntry
  roots : ℕ
  running : List RootedFn
  collected : ℕ
  called : List (RootedFn × ℕ)
deriving DecidableEq

def JsState.new : JsState := ⟨0, [], 0, [], 0, []⟩

inductive Answer
  | id (x : BitVec 64)
  | fired (n : ℕ)
  | failed
  | nothing
deriving DecidableEq

/-- What happens in a runtime, one thing after the other: calls that a script or a running callback
makes, ticks, and the end of a running callback. -/
inductive Event
  | setTimeout (ms : BitVec 64)
  | setInterval (ms : BitVec 64)
  | clear (id : BitVec 64)
  | tickTimers (elapsedMs : BitVec 64)
  | returns
  | throws
deriving DecidableEq

namespace JsState

def addTimer (s : JsState) (kind : Kind) (cb : RootedFn) (ms : ℕ) (period : Option ℕ) :
    JsState × BitVec 64 :=
  let id := s.timers.length
  let due := saturatingAdd s.clock ms
  ({ s with timers := s.timers ++ [⟨kind, due, period, cb⟩] }, Doubles.ofNat id)

def clearTimer (s : JsState) (id : BitVec 64) : JsState :=
  let i := Doubles.toNat id
  if i < s.timers.length then { s with timers := s.timers.eraseIdx i } else s

/-- What a due timer leaves behind: an interval is due again later, counted from now. -/
def rearm (clock : ℕ) (t : TimerEntry) : Option TimerEntry :=
  if t.due ≤ clock then
    if t.kind = .interval then
      t.period.map (fun p ↦ { t with due := saturatingAdd clock p })
    else none
  else some t

/-- The due callbacks are collected before any of them is called. -/
def collect (s : JsState) (elapsedMs : ℕ) : JsState :=
  let clock := saturatingAdd s.clock elapsedMs
  let due := (s.timers.filter (fun t ↦ t.due ≤ clock)).map (·.cb)
  { s with
    clock := clock
    timers := s.timers.filterMap (rearm clock)
    running := due
    collected := due.length }

def callNext (s : JsState) : JsState :=
  match s.running with
  | [] => s
  | cb :: _ => { s with called := s.called ++ [(cb, s.clock)] }

/-- Where the callbacks left are none, the tick ends and returns how many they were. -/
def outcome (s : JsState) : Answer := if s.running = [] then .fired s.collected else .nothing

end JsState

/-- A tick cannot begin while another is in progress, and only a running callback can end. -/
def step (s : JsState) : Event → JsState × Answer
  | .setTimeout ms =>
    let (s', id) := { s with roots := s.roots + 1 }.addTimer .timeout s.roots ms.toNat none
    (s', .id id)
  | .setInterval ms =>
    let (s', id) :=
      { s with roots := s.roots + 1 }.addTimer .interval s.roots ms.toNat (some ms.toNat)
    (s', .id id)
  | .clear id => (s.clearTimer id, .nothing)
  | .tickTimers elapsedMs =>
    match s.running with
    | [] =>
      let s' := s.collect elapsedMs.toNat
      (s'.callNext, s'.outcome)
    | _ :: _ => (s, .nothing)
  | .returns =>
    match s.running with
    | [] => (s, .nothing)
    | _ :: rest =>
      let s' := { s with running := rest }
      (s'.callNext, s'.outcome)
  -- the `?` in the loop leaves the callbacks after the one that throws
  | .throws =>
    match s.running with
    | [] => (s, .nothing)
    | _ :: _ => ({ s with running := [] }, .failed)

abbrev after (events : List Event) : JsState := Execution.run step .new events

end Aldivine.Javascript.Timers
