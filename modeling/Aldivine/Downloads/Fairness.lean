import Aldivine.Downloads.Model
import Aldivine.Foundation.Execution
import Aldivine.Foundation.Turns

namespace Aldivine.Downloads.Fairness

open Foundation.Execution Foundation.Rotation Lanes

theorem lane_mem_all (lane : Lane) : lane ∈ Lane.all := by cases lane <;> decide

theorem nodup_all : Lane.all.Nodup := by decide

theorem weight_pos (lane : Lane) : 0 < lane.weight.toNat := by cases lane <;> decide

/-- What is left of the turn of a lane, or the whole turn if it has not begun. -/
def quantum (s : LaneScheduler) (lane : Lane) : ℕ :=
  ((s.remaining lane).getD lane.weight).toNat

def wait (s : LaneScheduler) (lane : Lane) : ℕ :=
  ((ahead Lane.all s.pos lane).map (quantum s)).sum

/-- Only the current lane has begun a turn, and the turn is neither spent nor too long. -/
structure InTurn (s : LaneScheduler) : Prop where
  pos : s.pos < Lane.all.length
  begun : ∀ lane rem, s.remaining lane = some rem →
    lane = s.current ∧ 0 < rem.toNat ∧ rem.toNat ≤ lane.weight.toNat

section Turns

variable {s : LaneScheduler} {lane : Lane}

theorem InTurn.current (h : InTurn s) : s.current = Lane.all.get ⟨s.pos, h.pos⟩ := by
  simp only [LaneScheduler.current, Nat.mod_eq_of_lt h.pos]

theorem InTurn.quantum_pos (h : InTurn s) (lane : Lane) : 0 < quantum s lane := by
  unfold quantum
  cases hrem : s.remaining lane with
  | none => exact weight_pos lane
  | some rem => exact (h.begun lane rem hrem).2.1

theorem InTurn.quantum_le (h : InTurn s) (lane : Lane) : quantum s lane ≤ lane.weight.toNat := by
  unfold quantum
  cases hrem : s.remaining lane with
  | none => exact le_rfl
  | some rem => exact (h.begun lane rem hrem).2.2

theorem InTurn.quantum_other (h : InTurn s) (hne : lane ≠ s.current) :
    quantum s lane = lane.weight.toNat := by
  unfold quantum
  cases hrem : s.remaining lane with
  | none => rfl
  | some rem => exact absurd (h.begun lane rem hrem).1 hne

theorem inTurn_new : InTurn .new := ⟨by decide, fun _ _ h ↦ by cases h⟩

theorem InTurn.ahead_eq (h : InTurn s) (hne : s.current ≠ lane) :
    ahead Lane.all s.pos lane =
      s.current :: ahead Lane.all ((s.pos + 1) % Lane.all.length) lane := by
  rw [h.current] at hne ⊢
  exact ahead_next h.pos (lane_mem_all lane) hne

theorem passOn_remaining (h : InTurn s) (lane : Lane) :
    (s.passOn s.current).remaining lane = none := by
  simp only [LaneScheduler.passOn, Function.update_apply]
  split
  · rfl
  · rename_i hne
    exact Option.eq_none_iff_forall_ne_some.mpr (fun rem hrem ↦ hne (h.begun lane rem hrem).1)

theorem InTurn.passOn (h : InTurn s) : InTurn (s.passOn s.current) where
  pos := Nat.mod_lt _ (by decide)
  begun lane rem hrem := by
    rw [passOn_remaining h] at hrem
    cases hrem

theorem InTurn.wait_eq (h : InTurn s) (hne : s.current ≠ lane) :
    wait s lane = quantum s s.current +
      ((ahead Lane.all ((s.pos + 1) % Lane.all.length) lane).map (fun l ↦ l.weight.toNat)).sum := by
  have hnext := h.ahead_eq hne
  have hnodup : (ahead Lane.all s.pos lane).Nodup := nodup_ahead nodup_all
  rw [hnext] at hnodup
  rw [wait, hnext, List.map_cons, List.sum_cons]
  congr 2
  refine List.map_congr_left (fun other hother ↦ h.quantum_other (fun he ↦ ?_))
  exact (List.nodup_cons.mp hnodup).1 (he ▸ hother)

theorem InTurn.wait_passOn (h : InTurn s) (hne : s.current ≠ lane) :
    wait s lane = quantum s s.current + wait (s.passOn s.current) lane := by
  rw [h.wait_eq hne, wait]
  congr 2
  refine List.map_congr_left (fun other _ ↦ ?_)
  rw [quantum, passOn_remaining h, Option.getD_none]

theorem InTurn.spend (h : InTurn s) {s' : LaneScheduler} {rem : BitVec 64} (hpos : s'.pos = s.pos)
    (hremaining : s'.remaining = Function.update s.remaining s.current (some rem))
    (hspent : rem.toNat + 1 = quantum s s.current) (hleft : 0 < rem.toNat) :
    InTurn s' ∧ ∀ lane, s.current ≠ lane → wait s' lane + 1 = wait s lane := by
  have hcurrent : s'.current = s.current := by simp only [LaneScheduler.current, hpos]
  have hquantum : quantum s' s.current = rem.toNat := by
    rw [quantum, hremaining, Function.update_self, Option.getD_some]
  have hturn : InTurn s' := by
    refine ⟨hpos ▸ h.pos, fun lane r hr ↦ ?_⟩
    rw [hremaining, Function.update_apply] at hr
    split at hr
    · rename_i hlane
      cases hr
      subst hlane
      have hle := h.quantum_le s.current
      exact ⟨hcurrent.symm, hleft, by omega⟩
    · rw [hcurrent]
      exact h.begun lane r hr
  refine ⟨hturn, fun lane hne ↦ ?_⟩
  have hnext := hturn.wait_eq (hcurrent ▸ hne)
  rw [hcurrent, hquantum, hpos] at hnext
  rw [hnext, h.wait_eq hne, ← hspent]
  omega

theorem InTurn.serve (h : InTurn s) (jobs : List (BitVec 64)) :
    InTurn (s.serve s.current jobs) ∧
      ∀ lane, s.current ≠ lane → wait (s.serve s.current jobs) lane + 1 ≤ wait s lane := by
  have hpos := h.quantum_pos s.current
  unfold LaneScheduler.serve
  dsimp only
  split
  · refine ⟨⟨h.passOn.pos, h.passOn.begun⟩, fun lane hne ↦ ?_⟩
    have hwait := h.wait_passOn hne
    show wait (s.passOn s.current) lane + 1 ≤ wait s lane
    omega
  · rename_i hgoes
    have hnat : 0 < ((s.remaining s.current).getD s.current.weight).toNat := hpos
    have hspent : ((s.remaining s.current).getD s.current.weight - 1).toNat + 1 =
        quantum s s.current := by
      rw [BitVec.toNat_sub_of_le (by rw [BitVec.le_def]; exact hnat)]
      exact Nat.sub_add_cancel hnat
    have hleft : 0 < ((s.remaining s.current).getD s.current.weight - 1).toNat :=
      Nat.pos_of_ne_zero (fun hzero ↦ hgoes (.inr (BitVec.eq_of_toNat_eq hzero)))
    have hspend := @InTurn.spend s h
      { s with
          queues := Function.update s.queues s.current jobs
          remaining := Function.update s.remaining s.current
            (some ((s.remaining s.current).getD s.current.weight - 1))
          served := Function.update s.served s.current (s.served s.current + 1) }
      _ rfl rfl hspent hleft
    exact ⟨hspend.1, fun lane hne ↦ (hspend.2 lane hne).le⟩

theorem serve_queues (s : LaneScheduler) (jobs : List (BitVec 64)) :
    (s.serve s.current jobs).queues = Function.update s.queues s.current jobs := by
  unfold LaneScheduler.serve
  dsimp only
  split
  · rfl
  · rfl

end Turns

section Popping

variable {s : LaneScheduler}

inductive Popped (s : LaneScheduler) :
    LaneScheduler × Option (Lane × BitVec 64) → Prop
  | idle {s' : LaneScheduler} (hempty : ∀ lane, s.queues lane = [])
      (hqueues : s'.queues = s.queues) (hturn : InTurn s') : Popped s (s', none)
  | served {s' : LaneScheduler} {lane : Lane} {job : BitVec 64} {jobs : List (BitVec 64)}
      (hfront : s.queues lane = job :: jobs)
      (hqueues : s'.queues = Function.update s.queues lane jobs) (hturn : InTurn s')
      (hwait : ∀ other, s.queues other ≠ [] → lane ≠ other → wait s' other + 1 ≤ wait s other) :
      Popped s (s', some (lane, job))

theorem visit_popped {n : ℕ} (h : InTurn s) {lane : Lane} (hjob : s.queues lane ≠ [])
    (hlen : (ahead Lane.all s.pos lane).length < n) : Popped s (s.visit n) := by
  induction n generalizing s with
  | zero => exact absurd hlen (Nat.not_lt_zero _)
  | succ n ih =>
    rw [LaneScheduler.visit]
    split
    · rename_i hempty
      have hpass (other : Lane) (hother : s.queues other ≠ []) : s.current ≠ other :=
        fun he ↦ hother (he ▸ hempty)
      rw [h.ahead_eq (hpass lane hjob), List.length_cons, Nat.succ_lt_succ_iff] at hlen
      have hnext := ih h.passOn hjob hlen
      generalize (s.passOn s.current).visit n = r at hnext
      cases hnext with
      | idle hnone => exact absurd (hnone lane) hjob
      | served hfront hqueues hturn hwait =>
        refine .served hfront hqueues hturn (fun other hother hne ↦ ?_)
        have hstep := h.wait_passOn (hpass other hother)
        have hrest := hwait other hother hne
        omega
    · rename_i job jobs hfront
      obtain ⟨hturn, hwait⟩ := h.serve jobs
      exact .served hfront (serve_queues s jobs) hturn (fun other _ hne ↦ hwait other hne)

theorem popNext_popped (h : InTurn s) : Popped s s.popNext := by
  unfold LaneScheduler.popNext
  split
  · rename_i hnone
    refine .idle (fun lane ↦ ?_) rfl ⟨Nat.succ_pos _, fun _ _ hrem ↦ by cases hrem⟩
    have hzero := List.sum_eq_zero_iff.mp hnone (s.pending lane)
      (List.mem_map_of_mem (lane_mem_all lane))
    exact List.length_eq_zero_iff.mp hzero
  · rename_i hsome
    obtain ⟨lane, hjob⟩ : ∃ lane, s.queues lane ≠ [] := by
      by_contra hnone
      push Not at hnone
      refine hsome (List.sum_eq_zero_iff.mpr (fun n hn ↦ ?_))
      obtain ⟨lane, -, rfl⟩ := List.mem_map.mp hn
      rw [LaneScheduler.pending, hnone lane, List.length_nil]
    have hlen := sum_ahead_le (fun _ ↦ 1) s.pos (lane_mem_all lane)
    exact visit_popped h hjob (Nat.lt_of_succ_le (by simpa using hlen))

end Popping

section Runs

variable {s : LaneScheduler}

def enqueuedOn (lane : Lane) : Call → Option (BitVec 64)
  | .enqueue l job => if l = lane then some job else none
  | .popNext => none

def servedOn (lane : Lane) : Option (Lane × BitVec 64) → Option (BitVec 64)
  | some (l, job) => if l = lane then some job else none
  | none => none

def isPop : Call → Bool
  | .enqueue _ _ => false
  | .popNext => true

/-- Turns are in order, and what was put on a lane is what was served to it and what it holds. -/
structure Accounted (s : LaneScheduler) (history : List (Call × Option (Lane × BitVec 64))) :
    Prop where
  turn : InTurn s
  fifo : ∀ lane, history.filterMap (fun x ↦ enqueuedOn lane x.1) =
    history.filterMap (fun x ↦ servedOn lane x.2) ++ s.queues lane

theorem step_accounted {history : List (Call × Option (Lane × BitVec 64))} {call : Call}
    (h : Accounted s history) :
    Accounted (step s call).1 (history ++ [(call, (step s call).2)]) := by
  cases call with
  | enqueue l job =>
    refine ⟨⟨h.turn.pos, h.turn.begun⟩, fun lane ↦ ?_⟩
    rw [List.filterMap_append, List.filterMap_append, h.fifo lane]
    by_cases hlane : l = lane
    · subst hlane
      simp [step, LaneScheduler.enqueue, enqueuedOn, servedOn]
    · simp [step, LaneScheduler.enqueue, enqueuedOn, servedOn, hlane,
        Function.update_of_ne (Ne.symm hlane)]
  | popNext =>
    have hpop : Popped s (step s .popNext) := popNext_popped h.turn
    generalize step s .popNext = r at hpop
    cases hpop with
    | idle hempty hqueues hturn =>
      refine ⟨hturn, fun lane ↦ ?_⟩
      rw [List.filterMap_append, List.filterMap_append, h.fifo lane, hqueues]
      simp [enqueuedOn, servedOn]
    | @served s' l job jobs hfront hqueues hturn hwait =>
      refine ⟨hturn, fun lane ↦ ?_⟩
      rw [List.filterMap_append, List.filterMap_append, h.fifo lane, hqueues]
      by_cases hlane : l = lane
      · subst hlane
        simp [enqueuedOn, servedOn, hfront]
      · simp [enqueuedOn, servedOn, hlane, Function.update_of_ne (Ne.symm hlane)]

/-- While `lane` has jobs and gets none, every pop shortens its wait. -/
theorem window_wait {lane : Lane} (h : InTurn s) (window : List Call)
    (hjob : ∀ x ∈ trace step s window, x.2 = .popNext → x.1.queues lane ≠ [])
    (hnone : ∀ x ∈ answers step s window, servedOn lane x.2 = none) :
    InTurn (run step s window) ∧
      wait (run step s window) lane + window.countP isPop ≤ wait s lane := by
  induction window using List.reverseRecOn with
  | nil => exact ⟨h, le_rfl⟩
  | append_singleton window call ih =>
    rw [trace_concat, List.forall_mem_append, List.forall_mem_singleton] at hjob
    rw [answers_concat, List.forall_mem_append, List.forall_mem_singleton] at hnone
    obtain ⟨hturn, hle⟩ := ih hjob.1 hnone.1
    rw [run_concat, List.countP_append]
    cases call with
    | enqueue l job => exact ⟨⟨hturn.pos, hturn.begun⟩, hle⟩
    | popNext =>
      have hpop : Popped (run step s window) (step (run step s window) .popNext) :=
        popNext_popped hturn
      have hjob := hjob.2 rfl
      have hnone := hnone.2
      generalize step (run step s window) .popNext = r at hpop hnone
      cases hpop with
      | idle hempty => exact absurd (hempty lane) hjob
      | @served s' l job jobs hfront hqueues hturn hwait =>
        have hother : l ≠ lane := by
          intro he
          simp [servedOn, he] at hnone
        have hnext := hwait lane hjob hother
        refine ⟨hturn, ?_⟩
        show wait s' lane + (window.countP isPop + 1) ≤ wait s lane
        omega

theorem wait_le (h : InTurn s) (lane : Lane) : wait s lane + lane.weight.toNat ≤ 16 := by
  have hsum := sum_ahead_le (fun l ↦ l.weight.toNat) s.pos (lane_mem_all lane)
  have hle : wait s lane ≤ ((ahead Lane.all s.pos lane).map (fun l ↦ l.weight.toNat)).sum :=
    List.sum_le_sum (fun l _ ↦ h.quantum_le l)
  exact (Nat.add_le_add_right hle _).trans hsum

/-- After any calls, a job is served whenever there is one, every lane is served in the order its
jobs came in, each job once, no turn is overdrawn, in the loop neither, and a lane that has jobs
throughout is served before the others have had their turns. -/
theorem lanes_served (calls : List Call) :
    let s := run step .new calls
    let history := answers step .new calls
    ((∃ lane, s.queues lane ≠ []) → s.popNext.2.isSome = true) ∧
      (∀ lane, calls.filterMap (enqueuedOn lane) =
        history.filterMap (fun x ↦ servedOn lane x.2) ++ s.queues lane) ∧
      (∀ skipped lane,
        1 ≤ quantum ((fun s ↦ LaneScheduler.passOn s s.current)^[skipped] s) lane) ∧
      ∀ lane window, 17 - lane.weight.toNat ≤ window.countP isPop →
        (∀ x ∈ trace step s window, x.2 = .popNext → x.1.queues lane ≠ []) →
        ∃ x ∈ answers step s window, ∃ job, x.2 = some (lane, job) := by
  intro s history
  have haccounted : Accounted s history := by
    refine invariant_throughout (I := Accounted) (P := fun _ _ _ ↦ True) ?_
      ⟨inTurn_new, fun lane ↦ rfl⟩ calls (fun _ _ _ ↦ trivial)
    exact fun s history call h _ ↦ step_accounted h
  refine ⟨?_, fun lane ↦ ?_, fun skipped lane ↦ ?_, fun lane window hcount hjob ↦ ?_⟩
  · rintro ⟨lane, hjob⟩
    have hpop := popNext_popped haccounted.turn
    generalize s.popNext = r at hpop
    cases hpop with
    | idle hempty => exact absurd (hempty lane) hjob
    | served => rfl
  · have hinputs := answers_inputs step .new calls
    rw [← haccounted.fifo lane, ← hinputs, List.filterMap_map]
    rfl
  · have hturn : InTurn ((fun s ↦ LaneScheduler.passOn s s.current)^[skipped] s) :=
      Function.Iterate.rec InTurn haccounted.turn (fun s hs ↦ InTurn.passOn hs) skipped
    exact hturn.quantum_pos lane
  · by_contra hnone
    push Not at hnone
    have hunserved (x) (hx : x ∈ answers step s window) : servedOn lane x.2 = none := by
      rcases hanswer : x.2 with _ | ⟨l, job⟩
      · rfl
      · have hother : l ≠ lane := fun he ↦ hnone x hx job (he ▸ hanswer)
        exact if_neg hother
    have hwait := (window_wait haccounted.turn window hjob hunserved).2
    have hle := wait_le haccounted.turn lane
    have hpos := weight_pos lane
    omega

/-- A turn of `foreground` is half spent when nine jobs arrive on `joinCritical`. -/
def arrivals : List Call :=
  List.replicate 9 (.enqueue .joinCritical 7) ++ List.replicate 9 .popNext

theorem arrivals_served :
    ∃ x ∈ answers step
        (run step .new [.enqueue .foreground 1, .enqueue .foreground 2, .popNext]) arrivals,
      ∃ job, x.2 = some (.joinCritical, job) :=
  (lanes_served [.enqueue .foreground 1, .enqueue .foreground 2, .popNext]).2.2.2
    .joinCritical arrivals (by decide) (by decide +kernel)

end Runs

end Aldivine.Downloads.Fairness
