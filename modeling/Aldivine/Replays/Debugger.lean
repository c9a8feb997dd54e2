import Aldivine.Foundation.Execution
import Mathlib.Logic.Function.Basic

namespace Aldivine.Replays.Debugger

open Foundation.Execution

inductive ReplayEventKind
  | eventTrigger (eventName : String)
  | nativeInvocation (nativeHash : BitVec 64)
  | stateBagUpdate (key value : String)
  | entitySpawn (entityId : BitVec 32) (model : String)
  | entityDespawn (entityId : BitVec 32)
  | resourceLifecycle (action : String)
deriving DecidableEq

structure ReplayEvent where
  tick : BitVec 64
  resource : String
  kind : ReplayEventKind
  payload : String
deriving DecidableEq

structure ReplayRecording where
  sessionId : String
  maxTick : BitVec 64
  events : List ReplayEvent
deriving DecidableEq

def ReplayRecording.new (sessionId : String) : ReplayRecording := ⟨sessionId, 0, []⟩

def ReplayRecording.recordEvent (r : ReplayRecording) (event : ReplayEvent) : ReplayRecording :=
  { r with
      maxTick := if event.tick > r.maxTick then event.tick else r.maxTick
      events := r.events ++ [event] }

inductive DebuggerPauseReason
  | tickBreakpoint (tick : BitVec 64)
  | eventBreakpoint (eventName : String)
  | stepCompleted
  | endOfRecording
deriving DecidableEq

inductive ReplayError
  | seekOutOfBounds (target max : BitVec 64)
deriving DecidableEq

abbrev Entities := BitVec 32 → Option String

structure ReplayDebugger where
  recording : ReplayRecording
  currentIndex : ℕ
  currentTick : BitVec 64
  tickBreakpoints : List (BitVec 64)
  eventBreakpoints : List String
  liveEntities : Entities

def applyEventState (live : Entities) : ReplayEventKind → Entities
  | .entitySpawn entityId model => Function.update live entityId (some model)
  | .entityDespawn entityId => Function.update live entityId none
  | _ => live

namespace ReplayDebugger

def new (recording : ReplayRecording) : ReplayDebugger := ⟨recording, 0, 0, [], [], fun _ ↦ none⟩

def addTickBreakpoint (d : ReplayDebugger) (tick : BitVec 64) : ReplayDebugger :=
  { d with tickBreakpoints := tick :: d.tickBreakpoints }

def addEventBreakpoint (d : ReplayDebugger) (eventName : String) : ReplayDebugger :=
  { d with eventBreakpoints := eventName :: d.eventBreakpoints }

def advance (d : ReplayDebugger) (event : ReplayEvent) : ReplayDebugger :=
  { d with
      currentTick := event.tick
      liveEntities := applyEventState d.liveEntities event.kind
      currentIndex := d.currentIndex + 1 }

def upcoming (d : ReplayDebugger) : List ReplayEvent := d.recording.events.drop d.currentIndex

def step (d : ReplayDebugger) : ReplayDebugger × Option ReplayEvent :=
  match d.upcoming with
  | [] => (d, none)
  | event :: _ => (d.advance event, some event)

def breakpoint (d : ReplayDebugger) (event : ReplayEvent) : Option DebuggerPauseReason :=
  if d.tickBreakpoints.contains event.tick then some (.tickBreakpoint event.tick)
  else
    match event.kind with
    | .eventTrigger eventName =>
      if d.eventBreakpoints.contains eventName then some (.eventBreakpoint eventName) else none
    | _ => none

/-- The loop of `continue_exec` over the events to come. The tick is moved before the breakpoints
are looked at. -/
def continueLoop (d : ReplayDebugger) : List ReplayEvent → ReplayDebugger × DebuggerPauseReason
  | [] => (d, .endOfRecording)
  | event :: rest =>
    match d.breakpoint event with
    | some reason => ({ d with currentTick := event.tick }, reason)
    | none => continueLoop (d.advance event) rest

def continueExec (d : ReplayDebugger) : ReplayDebugger × DebuggerPauseReason :=
  d.continueLoop d.upcoming

def seekLoop (d : ReplayDebugger) (targetTick : BitVec 64) : List ReplayEvent → ReplayDebugger
  | [] => d
  | event :: rest =>
    if event.tick > targetTick then d else seekLoop (d.advance event) targetTick rest

/-- The debugger back at the start of the recording. -/
def rewind (d : ReplayDebugger) : ReplayDebugger :=
  { d with currentIndex := 0, currentTick := 0, liveEntities := fun _ ↦ none }

def seek (d : ReplayDebugger) (targetTick : BitVec 64) :
    ReplayDebugger × Except ReplayError Unit :=
  if targetTick > d.recording.maxTick ∧ ¬ d.recording.events.isEmpty then
    (d, .error (.seekOutOfBounds targetTick d.recording.maxTick))
  else (d.rewind.seekLoop targetTick d.rewind.upcoming, .ok ())

end ReplayDebugger

inductive Op
  | addTickBreakpoint (tick : BitVec 64)
  | addEventBreakpoint (eventName : String)
  | step
  | continueExec
  | seek (targetTick : BitVec 64)
deriving DecidableEq

inductive Answer
  | done
  | stepped (event : Option ReplayEvent)
  | paused (reason : DebuggerPauseReason)
  | sought (result : Except ReplayError Unit)

def act (d : ReplayDebugger) : Op → ReplayDebugger × Answer
  | .addTickBreakpoint tick => (d.addTickBreakpoint tick, .done)
  | .addEventBreakpoint eventName => (d.addEventBreakpoint eventName, .done)
  | .step => (d.step.1, .stepped d.step.2)
  | .continueExec => (d.continueExec.1, .paused d.continueExec.2)
  | .seek targetTick => ((d.seek targetTick).1, .sought (d.seek targetTick).2)

def applyAll (events : List ReplayEvent) : Entities :=
  events.foldl (fun live event ↦ applyEventState live event.kind) (fun _ ↦ none)

/-- The debugger has applied the events before the current index, each once. -/
structure Synced (recording : ReplayRecording) (d : ReplayDebugger) : Prop where
  recording_eq : d.recording = recording
  index_le : d.currentIndex ≤ recording.events.length
  live_eq : d.liveEntities = applyAll (recording.events.take d.currentIndex)

variable {recording : ReplayRecording} {d : ReplayDebugger} {event : ReplayEvent}
  {rest : List ReplayEvent} {t : BitVec 64}

theorem applyAll_concat (events : List ReplayEvent) (event : ReplayEvent) :
    applyAll (events ++ [event]) = applyEventState (applyAll events) event.kind := by
  rw [applyAll, List.foldl_append]
  rfl

theorem synced_new (recording : ReplayRecording) : Synced recording (.new recording) :=
  ⟨rfl, Nat.zero_le _, rfl⟩

theorem Synced.upcoming_eq (h : Synced recording d) :
    d.upcoming = recording.events.drop d.currentIndex := by
  rw [ReplayDebugger.upcoming, h.recording_eq]

theorem Synced.at_end (h : Synced recording d) (hnext : d.upcoming = []) :
    d.currentIndex = recording.events.length := by
  rw [h.upcoming_eq, List.drop_eq_nil_iff] at hnext
  exact Nat.le_antisymm h.index_le hnext

theorem Synced.live_at_end (h : Synced recording d)
    (hend : d.currentIndex = recording.events.length) :
    d.liveEntities = applyAll recording.events := by
  rw [h.live_eq, hend, List.take_length]

theorem Synced.advance (h : Synced recording d) (hnext : d.upcoming = event :: rest) :
    Synced recording (d.advance event) ∧ (d.advance event).upcoming = rest := by
  rw [h.upcoming_eq] at hnext
  have hlt : d.currentIndex < recording.events.length := by
    by_contra hge
    rw [List.drop_eq_nil_of_le (Nat.not_lt.mp hge)] at hnext
    cases hnext
  rw [List.drop_eq_getElem_cons hlt, List.cons.injEq] at hnext
  obtain ⟨hevent, hrest⟩ := hnext
  refine ⟨⟨h.recording_eq, hlt, ?_⟩, ?_⟩
  · calc applyEventState d.liveEntities event.kind
        = applyAll (recording.events.take d.currentIndex ++ [event]) := by
          rw [applyAll_concat, h.live_eq]
      _ = applyAll (recording.events.take (d.currentIndex + 1)) := by
          rw [List.take_succ_eq_append_getElem hlt, hevent]
  · rw [ReplayDebugger.upcoming, ← hrest]
    exact congrArg (fun r ↦ r.events.drop (d.currentIndex + 1)) h.recording_eq

theorem Synced.rewind (h : Synced recording d) : Synced recording d.rewind :=
  ⟨h.recording_eq, Nat.zero_le _, rfl⟩

theorem synced_continueLoop (h : Synced recording d) (hnext : d.upcoming = rest) :
    Synced recording (d.continueLoop rest).1 ∧
      ((d.continueLoop rest).2 = .endOfRecording →
        (d.continueLoop rest).1.currentIndex = recording.events.length) := by
  induction rest generalizing d with
  | nil => exact ⟨h, fun _ ↦ h.at_end hnext⟩
  | cons event rest ih =>
    rw [ReplayDebugger.continueLoop]
    cases hbreak : d.breakpoint event with
    | none =>
      obtain ⟨hadv, hrest⟩ := h.advance hnext
      exact ih hadv hrest
    | some reason =>
      refine ⟨⟨h.recording_eq, h.index_le, h.live_eq⟩, fun hend ↦ ?_⟩
      -- a breakpoint is not the end
      unfold ReplayDebugger.breakpoint at hbreak
      subst hend
      split at hbreak
      · cases hbreak
      · split at hbreak
        · split at hbreak <;> cases hbreak
        · cases hbreak

theorem synced_seekLoop (h : Synced recording d) (hnext : d.upcoming = rest) :
    Synced recording (d.seekLoop t rest) ∧
      (d.seekLoop t rest).currentIndex =
        d.currentIndex + (rest.takeWhile (fun event ↦ event.tick ≤ t)).length := by
  induction rest generalizing d with
  | nil => exact ⟨h, rfl⟩
  | cons event rest ih =>
    rw [ReplayDebugger.seekLoop]
    by_cases htick : event.tick > t
    · rw [if_pos htick, List.takeWhile_cons_of_neg (by simpa using htick)]
      exact ⟨h, rfl⟩
    · obtain ⟨hadv, hrest⟩ := h.advance hnext
      obtain ⟨hsynced, hindex⟩ := ih hadv hrest
      rw [if_neg htick, List.takeWhile_cons_of_pos (by simpa using htick), List.length_cons, hindex]
      refine ⟨hsynced, ?_⟩
      simp only [ReplayDebugger.advance]
      omega

theorem synced_step (h : Synced recording d) : Synced recording d.step.1 := by
  unfold ReplayDebugger.step
  cases hnext : d.upcoming with
  | nil => exact h
  | cons event rest => exact (h.advance hnext).1

theorem index_step (h : Synced recording d) :
    d.step.1.currentIndex = min (d.currentIndex + 1) recording.events.length := by
  unfold ReplayDebugger.step
  cases hnext : d.upcoming with
  | nil =>
    have hend := h.at_end hnext
    dsimp only
    omega
  | cons event rest =>
    have hle := (h.advance hnext).1.index_le
    simp only [ReplayDebugger.advance] at hle ⊢
    omega

/-- Seeking restarts and applies the events up to the first later one. -/
theorem seek_ok (h : Synced recording d) (ht : t ≤ recording.maxTick) :
    (d.seek t).2 = .ok () ∧ Synced recording (d.seek t).1 ∧
      (d.seek t).1.liveEntities =
        applyAll (recording.events.takeWhile (fun event ↦ event.tick ≤ t)) := by
  obtain ⟨hsynced, hindex⟩ := synced_seekLoop (t := t) h.rewind rfl
  have hin : ¬ (t > d.recording.maxTick ∧ ¬ d.recording.events.isEmpty) := by
    intro hout
    rw [h.recording_eq] at hout
    exact BitVec.not_lt.mpr ht hout.1
  unfold ReplayDebugger.seek
  rw [if_neg hin]
  refine ⟨rfl, hsynced, ?_⟩
  have hlive := hsynced.live_eq
  have hfirst : d.rewind.upcoming = recording.events := h.rewind.upcoming_eq
  have hzero : d.rewind.currentIndex = 0 := rfl
  rw [hindex, hfirst, hzero, Nat.zero_add] at hlive
  dsimp only
  rw [hfirst, hlive, ← List.prefix_iff_eq_take.mp (List.takeWhile_prefix _)]

theorem synced_act (op : Op) (h : Synced recording d) : Synced recording (act d op).1 := by
  cases op with
  | addTickBreakpoint tick => exact ⟨h.recording_eq, h.index_le, h.live_eq⟩
  | addEventBreakpoint eventName => exact ⟨h.recording_eq, h.index_le, h.live_eq⟩
  | step => exact synced_step h
  | continueExec => exact (synced_continueLoop h rfl).1
  | seek targetTick =>
    simp only [act]
    unfold ReplayDebugger.seek
    split
    · exact h
    · exact (synced_seekLoop h.rewind rfl).1

theorem synced_run (h : Synced recording d) (ops : List Op) : Synced recording (run act d ops) :=
  invariant_all (fun _ op hd ↦ synced_act op hd) h ops

end Aldivine.Replays.Debugger
