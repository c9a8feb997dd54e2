import Aldivine.Replays.Debugger

namespace Aldivine.Replays.Continuing

open Debugger

def Clear (d : ReplayDebugger) : Prop := ∀ event ∈ d.upcoming, d.breakpoint event = none

def resumed (d : ReplayDebugger) : ℕ → ReplayDebugger
  | 0 => d
  | k + 1 => (resumed d k).continueExec.1

def reason (d : ReplayDebugger) (k : ℕ) : DebuggerPauseReason := (resumed d k).continueExec.2

/-- The end is reported after one call for each event and one more at the latest, and no call
reports the event that the call before it has reported. -/
structure Progresses (d : ReplayDebugger) : Prop where
  ends : ∃ k ≤ d.recording.events.length, reason d k = .endOfRecording
  fresh : ∀ k, reason d k ≠ .endOfRecording → reason d (k + 1) ≠ .endOfRecording →
    (resumed d (k + 1)).currentIndex ≠ (resumed d (k + 2)).currentIndex

variable {d : ReplayDebugger} {event : ReplayEvent} {rest : List ReplayEvent}
  {pause : DebuggerPauseReason}

theorem upcoming_advance (h : d.upcoming = event :: rest) : (d.advance event).upcoming = rest := by
  have htail : d.recording.events.drop (d.currentIndex + 1) = d.upcoming.tail := List.tail_drop.symm
  rw [h] at htail
  exact htail

theorem breakpoint_ne_end (h : d.breakpoint event = some pause) : pause ≠ .endOfRecording := by
  intro hend
  subst hend
  unfold ReplayDebugger.breakpoint at h
  split at h
  · cases h
  · split at h
    · split at h <;> cases h
    · cases h

/-- The loop runs to the end, or stops in front of the first event at a breakpoint. -/
theorem continueLoop_cases (hnext : d.upcoming = rest) :
    (Clear d ∧ (d.continueLoop rest).2 = .endOfRecording ∧ (d.continueLoop rest).1.upcoming = []) ∨
    ∃ event later pause, (d.continueLoop rest).1.upcoming = event :: later ∧
      (d.continueLoop rest).1.breakpoint event = some pause ∧ event ∈ rest ∧
      d.breakpoint event = some pause ∧ (d.continueLoop rest).2 = pause := by
  induction rest generalizing d with
  | nil => exact .inl ⟨fun event hmem ↦ by simp [hnext] at hmem, rfl, hnext⟩
  | cons event rest ih =>
    rw [ReplayDebugger.continueLoop]
    cases hbreak : d.breakpoint event with
    | some pause =>
      exact .inr ⟨event, rest, pause, hnext, hbreak, List.mem_cons_self, hbreak, rfl⟩
    | none =>
      obtain ⟨hclear, hend⟩ | ⟨paused, later, pause, hup, hat, hmem, hfrom, hpause⟩ :=
        ih (upcoming_advance hnext)
      · refine .inl ⟨fun e he ↦ ?_, hend⟩
        rw [hnext] at he
        rcases List.mem_cons.mp he with rfl | he
        · exact hbreak
        · exact hclear e (by rwa [upcoming_advance hnext])
      · exact .inr ⟨paused, later, pause, hup, hat, List.mem_cons_of_mem _ hmem, hfrom, hpause⟩

theorem continueExec_paused (hnext : d.upcoming = event :: rest)
    (hbreak : d.breakpoint event = some pause) :
    d.continueExec = ({ d with currentTick := event.tick }, pause) := by
  rw [ReplayDebugger.continueExec, hnext, ReplayDebugger.continueLoop, hbreak]

theorem continueExec_clear (h : Clear d) :
    d.continueExec.2 = .endOfRecording ∧ Clear d.continueExec.1 := by
  obtain ⟨-, hend, hup⟩ | ⟨event, later, pause, -, -, hmem, hbreak, -⟩ :=
    continueLoop_cases (d := d) rfl
  · refine ⟨hend, fun event hmem ↦ ?_⟩
    have hnone : event ∈ (d.continueLoop d.upcoming).1.upcoming := hmem
    rw [hup] at hnone
    cases hnone
  · cases (h event hmem).symm.trans hbreak

theorem clear_resumed (h : Clear d) (k : ℕ) : Clear (resumed d k) := by
  induction k with
  | zero => exact h
  | succ k ih => exact (continueExec_clear ih).2

/-- Continuing makes progress exactly when there is nothing to pause at. -/
theorem progresses_iff (d : ReplayDebugger) :
    Progresses d ↔ ∀ event ∈ d.upcoming, d.breakpoint event = none := by
  constructor
  · intro h
    obtain ⟨hclear, -⟩ | ⟨event, later, pause, hup, hat, -, hfrom, hpause⟩ :=
      continueLoop_cases (d := d) rfl
    · exact hclear
    · -- the second call finds the debugger in front of the same event
      have hfirst : (resumed d 1).continueExec =
          ({ resumed d 1 with currentTick := event.tick }, pause) :=
        continueExec_paused hup hat
      have hpaused : reason d 0 ≠ .endOfRecording := by
        rw [show reason d 0 = pause from hpause]
        exact breakpoint_ne_end hfrom
      have hagain : reason d 1 ≠ .endOfRecording := by
        rw [reason, hfirst]
        exact breakpoint_ne_end hfrom
      refine absurd ?_ (h.fresh 0 hpaused hagain)
      exact (congrArg (fun r ↦ r.1.currentIndex) hfirst).symm
  · intro h
    have hend : ∀ k, reason d k = .endOfRecording :=
      fun k ↦ (continueExec_clear (clear_resumed h k)).1
    exact ⟨⟨0, Nat.zero_le _, hend 0⟩, fun k hbreak ↦ absurd (hend k) hbreak⟩

theorem reason_stuck (hnext : d.upcoming = event :: rest) (hbreak : d.breakpoint event = some pause)
    (k : ℕ) : reason d k = pause := by
  have hstay : (resumed d k).upcoming = event :: rest ∧
      (resumed d k).breakpoint event = some pause := by
    induction k with
    | zero => exact ⟨hnext, hbreak⟩
    | succ k ih =>
      rw [resumed, continueExec_paused ih.1 ih.2]
      exact ih
  rw [reason, continueExec_paused hstay.1 hstay.2]

def oneStop : ReplayDebugger :=
  .addTickBreakpoint (.new ⟨"one", 1, [⟨1, "chat", .nativeInvocation 0, ""⟩]⟩) 1

theorem oneStop_stuck : ¬ Progresses oneStop := by
  intro h
  refine h.fresh 0 ?_ ?_ rfl <;> decide

end Aldivine.Replays.Continuing
