import Aldivine.Foundation.Machine
import Aldivine.Foundation.Table

namespace Aldivine.Residency.Model

open Foundation.Machine Foundation.Table

inductive CommitOutcome
  | accepted
  | retryable
  | fatal
deriving DecidableEq

/-- The trait of the game bridge, for a bridge with states in `β`. -/
structure GameCommit (β : Type) where
  requestResidency : β → String → CommitOutcome × β
  confirmResident : β → String → Bool × β

inductive ResidencyState
  | requested
  | waiting (deadlineTick : BitVec 64)
  | resident (deadlineTick : BitVec 64)
  | ready
  | failed (reason : String)
  | expired
  | cancelled
deriving DecidableEq

def ResidencyState.terminal : ResidencyState → Bool
  | .ready | .failed _ | .expired | .cancelled => true
  | _ => false

inductive ResidencyError
  | unknown (assetId : String)
  | terminal (assetId : String)
  | duplicate (assetId : String)
deriving DecidableEq

structure Request where
  state : ResidencyState
  retriesUsed : BitVec 32
  maxRetries : BitVec 32
  timeoutTicks : BitVec 64
deriving DecidableEq

structure ResidencyTracker where
  requests : AList (fun _ : String ↦ Request)

/-- The state that an answer of the bridge leads to, if the deadline fits. -/
def settle (mode : Overflow) (nowTick timeoutTicks : BitVec 64) (reason : String) :
    CommitOutcome → Option ResidencyState
  | .accepted => (mode.add nowTick timeoutTicks).map .resident
  | .retryable => (mode.add nowTick timeoutTicks).map .waiting
  | .fatal => some (.failed reason)

namespace ResidencyTracker

variable {β : Type}

def new : ResidencyTracker := ⟨∅⟩

def put (t : ResidencyTracker) (assetId : String) (req : Request) : ResidencyTracker :=
  ⟨t.requests.insert assetId req⟩

/-- The bridge has been asked when the addition panics. -/
def request (mode : Overflow) (g : GameCommit β) (t : ResidencyTracker) (bridge : β)
    (assetId : String) (nowTick timeoutTicks : BitVec 64) (maxRetries : BitVec 32) :
    ResidencyTracker × β × Outcome ResidencyError ResidencyState :=
  if (t.requests.lookup assetId).isSome then (t, bridge, .err (.duplicate assetId))
  else
    let timeoutTicks := if timeoutTicks = 0 then 1 else timeoutTicks
    let (outcome, bridge) := g.requestResidency bridge assetId
    match settle mode nowTick timeoutTicks "bridge refused residency" outcome with
    | none => (t, bridge, .panic)
    | some state => (t.put assetId ⟨state, 0, maxRetries, timeoutTicks⟩, bridge, .ok state)

/-- The retry has been counted and the bridge asked when the addition of a retry panics. -/
def poll (mode : Overflow) (g : GameCommit β) (t : ResidencyTracker) (bridge : β)
    (assetId : String) (nowTick : BitVec 64) :
    ResidencyTracker × β × Outcome ResidencyError ResidencyState :=
  match t.requests.lookup assetId with
  | none => (t, bridge, .err (.unknown assetId))
  | some req =>
    match req.state with
    | .requested =>
      match mode.add nowTick req.timeoutTicks with
      | none => (t, bridge, .panic)
      | some deadlineTick =>
        (t.put assetId { req with state := .waiting deadlineTick }, bridge,
          .ok (.waiting deadlineTick))
    | .waiting deadlineTick =>
      if nowTick < deadlineTick then (t, bridge, .ok req.state)
      else if req.retriesUsed ≥ req.maxRetries then
        (t.put assetId { req with state := .expired }, bridge, .ok .expired)
      else
        let req := { req with retriesUsed := req.retriesUsed + 1 }
        let (outcome, bridge) := g.requestResidency bridge assetId
        match settle mode nowTick req.timeoutTicks "bridge refused residency on retry" outcome with
        | none => (t.put assetId req, bridge, .panic)
        | some state => (t.put assetId { req with state := state }, bridge, .ok state)
    | .resident deadlineTick =>
      let (confirmed, bridge) := g.confirmResident bridge assetId
      let state :=
        if confirmed then .ready else if nowTick ≥ deadlineTick then .expired else req.state
      (t.put assetId { req with state := state }, bridge, .ok state)
    | state => (t, bridge, .ok state)

def cancel (t : ResidencyTracker) (assetId : String) :
    ResidencyTracker × Outcome ResidencyError Unit :=
  match t.requests.lookup assetId with
  | none => (t, .err (.unknown assetId))
  | some req =>
    if req.state.terminal then (t, .err (.terminal assetId))
    else (t.put assetId { req with state := .cancelled }, .ok ())

def stateOf (t : ResidencyTracker) (assetId : String) : Option ResidencyState :=
  (t.requests.lookup assetId).map (·.state)

def reapTerminal (t : ResidencyTracker) : ResidencyTracker × List String :=
  (⟨retain (fun _ req ↦ !req.state.terminal) t.requests⟩,
    (t.requests.entries.filter (fun e ↦ e.2.state.terminal)).map (·.1))

end ResidencyTracker

structure World (β : Type) where
  tracker : ResidencyTracker
  bridge : β

inductive Op
  | request (assetId : String) (nowTick timeoutTicks : BitVec 64) (maxRetries : BitVec 32)
  | poll (assetId : String) (nowTick : BitVec 64)
  | cancel (assetId : String)
  | reapTerminal
deriving DecidableEq

inductive Answer
  | state (result : Outcome ResidencyError ResidencyState)
  | cancelled (result : Outcome ResidencyError Unit)
  | reaped (assetIds : List String)
deriving DecidableEq

variable {β : Type}

def step (mode : Overflow) (g : GameCommit β) (w : World β) : Op → World β × Answer
  | .request assetId nowTick timeoutTicks maxRetries =>
    let (tracker, bridge, result) :=
      w.tracker.request mode g w.bridge assetId nowTick timeoutTicks maxRetries
    (⟨tracker, bridge⟩, .state result)
  | .poll assetId nowTick =>
    let (tracker, bridge, result) := w.tracker.poll mode g w.bridge assetId nowTick
    (⟨tracker, bridge⟩, .state result)
  | .cancel assetId =>
    let (tracker, result) := w.tracker.cancel assetId
    (⟨tracker, w.bridge⟩, .cancelled result)
  | .reapTerminal =>
    let (tracker, assetIds) := w.tracker.reapTerminal
    (⟨tracker, w.bridge⟩, .reaped assetIds)

def confirmedState (nowTick deadlineTick : BitVec 64) (confirmed : Bool) : ResidencyState :=
  if confirmed then .ready else if nowTick ≥ deadlineTick then .expired else .resident deadlineTick

inductive Polled (mode : Overflow) (g : GameCommit β) (t : ResidencyTracker) (bridge : β)
    (assetId : String) (nowTick : BitVec 64) : ResidencyTracker → β → Prop
  | idle (hidle : ∀ req deadlineTick, t.requests.lookup assetId = some req →
      req.state = .waiting deadlineTick → nowTick < deadlineTick)
      (hresident : ∀ req deadlineTick, t.requests.lookup assetId = some req →
        req.state ≠ .resident deadlineTick) :
      Polled mode g t bridge assetId nowTick t bridge
  | parked {req : Request} {deadlineTick : BitVec 64}
      (hreq : t.requests.lookup assetId = some req) (hstate : req.state = .requested) :
      Polled mode g t bridge assetId nowTick
        (t.put assetId { req with state := .waiting deadlineTick }) bridge
  | expired {req : Request} {deadlineTick : BitVec 64}
      (hreq : t.requests.lookup assetId = some req) (hstate : req.state = .waiting deadlineTick)
      (hdue : deadlineTick ≤ nowTick) (hused : req.maxRetries ≤ req.retriesUsed) :
      Polled mode g t bridge assetId nowTick (t.put assetId { req with state := .expired }) bridge
  | retryPanicked {req : Request} {deadlineTick : BitVec 64}
      (hreq : t.requests.lookup assetId = some req) (hstate : req.state = .waiting deadlineTick)
      (hdue : deadlineTick ≤ nowTick) (hused : req.retriesUsed < req.maxRetries)
      (hsettle : settle mode nowTick req.timeoutTicks "bridge refused residency on retry"
        (g.requestResidency bridge assetId).1 = none) :
      Polled mode g t bridge assetId nowTick
        (t.put assetId
          { req with state := .waiting deadlineTick, retriesUsed := req.retriesUsed + 1 })
        (g.requestResidency bridge assetId).2
  | retried {req : Request} {deadlineTick : BitVec 64} {state : ResidencyState}
      (hreq : t.requests.lookup assetId = some req) (hstate : req.state = .waiting deadlineTick)
      (hdue : deadlineTick ≤ nowTick) (hused : req.retriesUsed < req.maxRetries)
      (hsettle : settle mode nowTick req.timeoutTicks "bridge refused residency on retry"
        (g.requestResidency bridge assetId).1 = some state) :
      Polled mode g t bridge assetId nowTick
        (t.put assetId { req with retriesUsed := req.retriesUsed + 1, state := state })
        (g.requestResidency bridge assetId).2
  | asked {req : Request} {deadlineTick : BitVec 64}
      (hreq : t.requests.lookup assetId = some req) (hstate : req.state = .resident deadlineTick) :
      Polled mode g t bridge assetId nowTick
        (t.put assetId { req with
          state := confirmedState nowTick deadlineTick (g.confirmResident bridge assetId).1 })
        (g.confirmResident bridge assetId).2

inductive Requested (mode : Overflow) (g : GameCommit β) (t : ResidencyTracker) (bridge : β)
    (assetId : String) (maxRetries : BitVec 32) : ResidencyTracker → β → Prop
  | duplicate (htracked : (t.requests.lookup assetId).isSome) :
      Requested mode g t bridge assetId maxRetries t bridge
  | panicked (hnew : t.requests.lookup assetId = none) :
      Requested mode g t bridge assetId maxRetries t (g.requestResidency bridge assetId).2
  | opened {nowTick timeoutTicks : BitVec 64} {state : ResidencyState}
      (hnew : t.requests.lookup assetId = none) (htimeout : timeoutTicks ≠ 0)
      (hsettle : settle mode nowTick timeoutTicks "bridge refused residency"
        (g.requestResidency bridge assetId).1 = some state) :
      Requested mode g t bridge assetId maxRetries
        (t.put assetId ⟨state, 0, maxRetries, timeoutTicks⟩) (g.requestResidency bridge assetId).2

variable {mode : Overflow} {g : GameCommit β} {t : ResidencyTracker} {bridge : β}
  {assetId : String} {nowTick timeoutTicks : BitVec 64} {maxRetries : BitVec 32}

theorem request_requested :
    Requested mode g t bridge assetId maxRetries
      (t.request mode g bridge assetId nowTick timeoutTicks maxRetries).1
      (t.request mode g bridge assetId nowTick timeoutTicks maxRetries).2.1 := by
  unfold ResidencyTracker.request
  split
  · exact .duplicate ‹_›
  · rename_i hnew
    rw [Bool.not_eq_true, Option.isSome_eq_false_iff, Option.isNone_iff_eq_none] at hnew
    dsimp only
    generalize hsettle : settle mode nowTick (if timeoutTicks = 0 then 1 else timeoutTicks)
      "bridge refused residency" (g.requestResidency bridge assetId).1 = settled
    cases settled with
    | none => exact .panicked hnew
    | some state =>
      refine .opened hnew ?_ hsettle
      split
      · decide
      · exact ‹_›

theorem poll_polled :
    Polled mode g t bridge assetId nowTick (t.poll mode g bridge assetId nowTick).1
      (t.poll mode g bridge assetId nowTick).2.1 := by
  unfold ResidencyTracker.poll
  cases hreq : t.requests.lookup assetId with
  | none =>
    refine .idle (fun req _ h ↦ ?_) (fun req _ h ↦ ?_)
    · cases hreq.symm.trans h
    · cases hreq.symm.trans h
  | some req =>
    have hidle (hwaiting : ∀ deadlineTick, req.state = .waiting deadlineTick →
        nowTick < deadlineTick) (hresident : ∀ deadlineTick, req.state ≠ .resident deadlineTick) :
        Polled mode g t bridge assetId nowTick t bridge := by
      refine .idle (fun req' deadlineTick h ↦ ?_) (fun req' deadlineTick h ↦ ?_)
      · cases hreq.symm.trans h
        exact hwaiting deadlineTick
      · cases hreq.symm.trans h
        exact hresident deadlineTick
    dsimp only
    cases hstate : req.state with
    | requested =>
      dsimp only
      cases mode.add nowTick req.timeoutTicks with
      | none => exact hidle (by simp [hstate]) (by simp [hstate])
      | some deadlineTick => exact .parked hreq hstate
    | waiting deadlineTick =>
      dsimp only
      split
      · rename_i hearly
        refine hidle (fun d hd ↦ ?_) (by simp [hstate])
        cases hstate.symm.trans hd
        exact hearly
      · rename_i hdue
        rw [BitVec.not_lt] at hdue
        split
        · exact .expired hreq hstate hdue ‹_›
        · rename_i hused
          have hused' : req.retriesUsed < req.maxRetries := BitVec.not_le.mp hused
          cases hsettle : settle mode nowTick req.timeoutTicks "bridge refused residency on retry"
              (g.requestResidency bridge assetId).1 with
          | none => exact .retryPanicked hreq hstate hdue hused' hsettle
          | some state => exact .retried hreq hstate hdue hused' hsettle
    | resident deadlineTick => exact .asked hreq hstate
    | ready => exact hidle (by simp [hstate]) (by simp [hstate])
    | failed reason => exact hidle (by simp [hstate]) (by simp [hstate])
    | expired => exact hidle (by simp [hstate]) (by simp [hstate])
    | cancelled => exact hidle (by simp [hstate]) (by simp [hstate])

end Aldivine.Residency.Model
