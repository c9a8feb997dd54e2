import Aldivine.Foundation.Execution
import Aldivine.Replays.Debugger

namespace Aldivine.Replays.Seeking

open Foundation.Execution Debugger

variable {recording : ReplayRecording} {d : ReplayDebugger} {t : BitVec 64}

/-- What an event says about an entity: its model, or that it is gone. -/
def effect (entityId : BitVec 32) : ReplayEventKind → Option (Option String)
  | .entitySpawn id model => if id = entityId then some (some model) else none
  | .entityDespawn id => if id = entityId then some none else none
  | _ => none

def verdict (entityId : BitVec 32) (events : List ReplayEvent) : Option (Option String) :=
  events.reverse.findSome? (fun event ↦ effect entityId event.kind)

theorem verdict_append (entityId : BitVec 32) (first second : List ReplayEvent) :
    verdict entityId (first ++ second) =
      (verdict entityId second).or (verdict entityId first) := by
  rw [verdict, List.reverse_append, List.findSome?_append]
  rfl

theorem applyEventState_apply (live : Entities) (kind : ReplayEventKind) (entityId : BitVec 32) :
    applyEventState live kind entityId = (effect entityId kind).getD (live entityId) := by
  cases kind with
  | entitySpawn id model =>
    by_cases hid : id = entityId
    · subst hid
      simp [applyEventState, effect]
    · simp [applyEventState, effect, hid, Function.update_of_ne (Ne.symm hid)]
  | entityDespawn id =>
    by_cases hid : id = entityId
    · subst hid
      simp [applyEventState, effect]
    · simp [applyEventState, effect, hid, Function.update_of_ne (Ne.symm hid)]
  | _ => rfl

/-- The last event about an entity decides whether it lives. -/
theorem applyAll_apply (events : List ReplayEvent) (entityId : BitVec 32) :
    applyAll events entityId = (verdict entityId events).join := by
  induction events using List.reverseRecOn with
  | nil => rfl
  | append_singleton events event ih =>
    have hlast : verdict entityId [event] = effect entityId event.kind := by
      simp [verdict, List.findSome?_singleton]
    rw [applyAll_concat, applyEventState_apply, ih, verdict_append, hlast]
    cases effect entityId event.kind with
    | none => rfl
    | some v => rfl

def early (recording : ReplayRecording) (t : BitVec 64) : List ReplayEvent :=
  recording.events.takeWhile (fun event ↦ event.tick ≤ t)

/-- The events of tick at most `t` that stand behind one of a later tick. -/
def late (recording : ReplayRecording) (t : BitVec 64) : List ReplayEvent :=
  (recording.events.dropWhile (fun event ↦ event.tick ≤ t)).filter (fun event ↦ event.tick ≤ t)

theorem filter_eq_early_late :
    recording.events.filter (fun event ↦ event.tick ≤ t) = early recording t ++ late recording t := by
  have hearly : ∀ event ∈ early recording t, decide (event.tick ≤ t) = true := by
    intro event hevent
    exact List.mem_takeWhile_imp (p := fun event : ReplayEvent ↦ decide (event.tick ≤ t)) hevent
  have hsplit : recording.events = early recording t ++
      recording.events.dropWhile (fun event ↦ event.tick ≤ t) :=
    (List.takeWhile_append_dropWhile (p := fun event : ReplayEvent ↦ decide (event.tick ≤ t))).symm
  calc recording.events.filter (fun event ↦ event.tick ≤ t)
      = (early recording t).filter (fun event ↦ event.tick ≤ t) ++ late recording t := by
        rw [late, ← List.filter_append, ← hsplit]
    _ = early recording t ++ late recording t := by
        rw [List.filter_eq_self.mpr hearly]

/-- The late events leave every entity as the early ones left it. -/
def Settled (recording : ReplayRecording) (t : BitVec 64) : Prop :=
  ∀ entityId outcome, verdict entityId (late recording t) = some outcome →
    outcome = (verdict entityId (early recording t)).join

theorem applyAll_early_iff :
    applyAll (early recording t) =
        applyAll (recording.events.filter (fun event ↦ event.tick ≤ t)) ↔
      Settled recording t := by
  rw [filter_eq_early_late, funext_iff]
  unfold Settled
  refine forall_congr' (fun entityId ↦ ?_)
  rw [applyAll_apply, applyAll_apply, verdict_append]
  cases verdict entityId (late recording t) with
  | none => simp
  | some outcome => simp [eq_comm]

theorem index_run_steps (h : Synced recording d) (n : ℕ) :
    (run act d (List.replicate n .step)).currentIndex =
      min (d.currentIndex + n) recording.events.length := by
  induction n generalizing d with
  | zero =>
    have hle := h.index_le
    rw [List.replicate_zero, run_nil]
    omega
  | succ n ih =>
    have hstep := index_step h
    rw [List.replicate_succ, run_cons, ih (synced_act .step h)]
    simp only [act] at hstep ⊢
    omega

theorem continueLoop_unhindered (events : List ReplayEvent)
    (hfree : ∀ event, d.breakpoint event = none) :
    (d.continueLoop events).2 = .endOfRecording := by
  induction events generalizing d with
  | nil => rfl
  | cons event events ih =>
    rw [ReplayDebugger.continueLoop, hfree event]
    exact ih hfree

/-- What seeking to `t` promises: exactly the events of tick at most `t` are applied, and playing on
from there, by any calls, gives at the end what a straight run gives; stepping gets to the end, and
so does continuing unless a breakpoint stands in the way. -/
structure Rewinds (recording : ReplayRecording) (d : ReplayDebugger) (t : BitVec 64) : Prop where
  accepted : (d.seek t).2 = .ok ()
  applied : (d.seek t).1.liveEntities =
    applyAll (recording.events.filter (fun event ↦ event.tick ≤ t))
  replays : ∀ more, (run act (d.seek t).1 more).currentIndex = recording.events.length →
    (run act (d.seek t).1 more).liveEntities =
      (run act (.new recording) (List.replicate recording.events.length .step)).liveEntities
  steps : (run act (d.seek t).1 (List.replicate recording.events.length .step)).currentIndex =
    recording.events.length
  continues : ∀ more, (∀ event, (run act (d.seek t).1 more).breakpoint event = none) →
    (run act (d.seek t).1 (more ++ [.continueExec])).currentIndex = recording.events.length

/-- Seeking does what it promises exactly when no event out of order has a say in the entities. -/
theorem seek_rewinds_iff (recording : ReplayRecording) (ops : List Op) (t : BitVec 64)
    (ht : t ≤ recording.maxTick) :
    Rewinds recording (run act (.new recording) ops) t ↔ Settled recording t := by
  have hsynced := synced_run (synced_new recording) ops
  generalize run act (.new recording) ops = d at hsynced
  obtain ⟨haccepted, hsought, hlive⟩ := seek_ok hsynced ht
  have happlied : applyAll (early recording t) =
      applyAll (recording.events.filter (fun event ↦ event.tick ≤ t)) ↔ Settled recording t :=
    applyAll_early_iff
  constructor
  · intro h
    exact happlied.mp (hlive.symm.trans h.applied)
  · intro h
    refine ⟨haccepted, hlive.trans (happlied.mpr h), fun more hend ↦ ?_, ?_, fun more hfree ↦ ?_⟩
    · have hstraight : (run act (.new recording)
          (List.replicate recording.events.length .step)).currentIndex =
          recording.events.length := by
        rw [index_run_steps (synced_new recording)]
        exact min_eq_right (Nat.le_add_left _ _)
      rw [(synced_run hsought more).live_at_end hend,
        (synced_run (synced_new recording) _).live_at_end hstraight]
    · rw [index_run_steps hsought]
      exact min_eq_right (Nat.le_add_left _ _)
    · rw [run_concat]
      exact (synced_continueLoop (synced_run hsought more) rfl).2
        (continueLoop_unhindered _ hfree)

def spawnAt (tick : BitVec 64) (entityId : BitVec 32) : ReplayEvent :=
  ⟨tick, "spawn", .entitySpawn entityId "adder", "\x7b\x7d"⟩

def ordered : ReplayRecording :=
  ((ReplayRecording.new "sess-1").recordEvent (spawnAt 3 10)).recordEvent (spawnAt 5 11)

theorem ordered_rewinds : Rewinds ordered (run act (.new ordered) [.continueExec]) 3 := by
  refine (seek_rewinds_iff ordered [.continueExec] 3 (by decide)).mpr (fun entityId outcome h ↦ ?_)
  have hlate : late ordered 3 = [] := by decide
  rw [hlate] at h
  cases h

def outOfOrder : ReplayRecording :=
  ((ReplayRecording.new "sess-1").recordEvent (spawnAt 5 10)).recordEvent (spawnAt 3 11)

theorem out_of_order_lost :
    3 ≤ outOfOrder.maxTick ∧ ¬ Rewinds outOfOrder (run act (.new outOfOrder) []) 3 := by
  refine ⟨by decide, fun h ↦ ?_⟩
  have hlost := congrFun h.applied 11
  have hsought : ((run act (.new outOfOrder) []).seek 3).1.liveEntities 11 = none := by decide
  have hexpected : applyAll (outOfOrder.events.filter (fun event ↦ event.tick ≤ 3)) 11 =
      some "adder" := by decide
  cases hsought.symm.trans (hlost.trans hexpected)

end Aldivine.Replays.Seeking
