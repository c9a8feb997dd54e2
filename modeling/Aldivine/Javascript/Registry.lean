import Aldivine.Javascript.Timers
import Mathlib.Data.List.Nodup

namespace Aldivine.Javascript.Registry

open Foundation Foundation.Execution Timers

def added (s : JsState) : Event → Option TimerEntry
  | .setTimeout ms => some ⟨.timeout, saturatingAdd s.clock ms.toNat, none, s.roots⟩
  | .setInterval ms =>
    some ⟨.interval, saturatingAdd s.clock ms.toNat, some ms.toNat, s.roots⟩
  | _ => none

/-- The calls that added timers, with the states they came in. The root of a timer is the number of
its call. -/
def births (events : List Event) : List (JsState × Event) :=
  (trace step .new events).filter (fun x ↦ (added x.1 x.2).isSome)

def pending (events : List Event) : List RootedFn := (after events).timers.map (·.cb)

def calls (s : JsState) : List RootedFn := s.called.map (·.1)

/-- The calls made, and those that the tick in progress is still to make. -/
def promised (s : JsState) : List RootedFn := calls s ++ s.running.tail

def collected (s : JsState) : Event → List RootedFn
  | .tickTimers elapsedMs => if s.running = [] then (s.collect elapsedMs.toNat).running else []
  | _ => []

section Steps

variable {s s' : JsState} {e : Event}

inductive Moves (s : JsState) : Event → JsState → Prop
  | adds (e : Event) (t : TimerEntry) (ht : added s e = some t) :
      Moves s e { s with roots := s.roots + 1, timers := s.timers ++ [t] }
  | clears (x : BitVec 64) :
      Moves s (.clear x) { s with timers := s.timers.eraseIdx (Doubles.toNat x) }
  | ticks (elapsedMs : BitVec 64) (h : s.running = []) :
      Moves s (.tickTimers elapsedMs) (s.collect elapsedMs.toNat).callNext
  | returns (cb : RootedFn) (rest : List RootedFn) (h : s.running = cb :: rest) :
      Moves s .returns { s with running := rest }.callNext
  | throws : Moves s .throws { s with running := [] }
  | idle (e : Event) (h : added s e = none) (hnone : collected s e = []) : Moves s e s

theorem step_moves (s : JsState) (e : Event) : Moves s e (step s e).1 := by
  cases e with
  | setTimeout ms => exact .adds _ _ rfl
  | setInterval ms => exact .adds _ _ rfl
  | clear x =>
    have hclear : s.clearTimer x = { s with timers := s.timers.eraseIdx (Doubles.toNat x) } := by
      simp only [JsState.clearTimer]
      split
      · rfl
      · rename_i hlen
        rw [List.eraseIdx_of_length_le (by omega)]
    simp only [step, hclear]
    exact .clears x
  | tickTimers elapsedMs =>
    simp only [step]
    split
    · rename_i hrun
      exact .ticks elapsedMs hrun
    · rename_i cb rest hrun
      exact .idle _ rfl (by rw [collected, hrun, if_neg (List.cons_ne_nil _ _)])
  | returns =>
    simp only [step]
    split
    · exact .idle _ rfl rfl
    · rename_i cb rest hrun
      exact .returns cb rest hrun
  | throws =>
    simp only [step]
    split
    · exact .idle _ rfl rfl
    · exact .throws

@[simp] theorem callNext_timers (s : JsState) : s.callNext.timers = s.timers := by
  unfold JsState.callNext
  split <;> rfl

@[simp] theorem callNext_roots (s : JsState) : s.callNext.roots = s.roots := by
  unfold JsState.callNext
  split <;> rfl

@[simp] theorem callNext_running (s : JsState) : s.callNext.running = s.running := by
  unfold JsState.callNext
  split <;> rfl

@[simp] theorem callNext_clock (s : JsState) : s.callNext.clock = s.clock := by
  unfold JsState.callNext
  split <;> rfl

theorem mem_called_callNext {x : RootedFn × ℕ} (h : x ∈ s.callNext.called) :
    x ∈ s.called ∨ x.1 ∈ s.running ∧ x.2 = s.clock := by
  unfold JsState.callNext at h
  cases hrun : s.running with
  | nil =>
    rw [hrun] at h
    exact .inl h
  | cons cb rest =>
    rw [hrun] at h
    rcases List.mem_append.mp h with h | h
    · exact .inl h
    · rw [List.mem_singleton.mp h]
      exact .inr ⟨List.mem_cons_self, rfl⟩

@[simp] theorem promised_callNext (s : JsState) : promised s.callNext = calls s ++ s.running := by
  unfold JsState.callNext
  cases hrun : s.running with
  | nil => simp [promised, hrun]
  | cons cb rest => simp [promised, calls]

theorem rearm_cb {clock : ℕ} {t t' : TimerEntry} (h : JsState.rearm clock t = some t') :
    t'.cb = t.cb ∧ t'.kind = t.kind ∧ (t.kind = .timeout → t' = t ∧ clock < t.due) := by
  unfold JsState.rearm at h
  split at h
  · split at h
    · rename_i hkind
      obtain ⟨p, -, rfl⟩ := Option.map_eq_some_iff.mp h
      refine ⟨rfl, rfl, fun htimeout ↦ ?_⟩
      rw [hkind] at htimeout
      cases htimeout
    · cases h
  · rename_i hdue
    obtain rfl := Option.some.inj h
    exact ⟨rfl, rfl, fun _ ↦ ⟨rfl, by omega⟩⟩

theorem rearm_sublist (clock : ℕ) (timers : List TimerEntry) :
    ((timers.filterMap (JsState.rearm clock)).map (·.cb)).Sublist (timers.map (·.cb)) := by
  induction timers with
  | nil => exact List.Sublist.refl _
  | cons t timers ih =>
    rw [List.filterMap_cons, List.map_cons]
    cases hrearm : JsState.rearm clock t with
    | none => exact ih.cons _
    | some t' =>
      rw [List.map_cons, (rearm_cb hrearm).1]
      exact ih.cons_cons _

theorem Moves.roots_le (h : Moves s e s') : s.roots ≤ s'.roots := by
  cases h with
  | adds e t ht => exact Nat.le_succ _
  | clears x => exact Nat.le_refl _
  | ticks elapsedMs hrun => simp [JsState.collect]
  | returns cb rest hrun => simp
  | throws => exact Nat.le_refl _
  | idle e he hnone => exact Nat.le_refl _

theorem added_cb {t : TimerEntry} (h : added s e = some t) : t.cb = s.roots := by
  cases e with
  | setTimeout ms =>
    cases h
    rfl
  | setInterval ms =>
    cases h
    rfl
  | _ => cases h

theorem timers_of_added {t : TimerEntry} (h : added s e = some t) :
    (step s e).1.timers = s.timers ++ [t] := by
  cases e with
  | setTimeout ms =>
    cases h
    rfl
  | setInterval ms =>
    cases h
    rfl
  | _ => cases h

theorem Moves.timers_sublist (h : Moves s e s') (hnone : added s e = none) :
    (s'.timers.map (·.cb)).Sublist (s.timers.map (·.cb)) := by
  cases h with
  | adds e t ht =>
    rw [hnone] at ht
    cases ht
  | clears x => exact (List.eraseIdx_sublist _ _).map _
  | ticks elapsedMs hrun =>
    rw [callNext_timers]
    exact rearm_sublist _ _
  | returns cb rest hrun =>
    rw [callNext_timers]
  | throws => exact List.Sublist.refl _
  | idle e he hnone => exact List.Sublist.refl _

theorem Moves.gone (h : Moves s e s') {k : RootedFn} (hk : k < s.roots)
    (hgone : k ∉ s.timers.map (·.cb)) : k ∉ s'.timers.map (·.cb) := by
  cases hadded : added s e with
  | none => exact fun hmem ↦ hgone ((h.timers_sublist hadded).subset hmem)
  | some t =>
    cases h with
    | adds e t ht =>
      rw [List.map_append, List.mem_append, not_or]
      refine ⟨hgone, fun hmem ↦ ?_⟩
      rw [List.map_singleton, List.mem_singleton, added_cb ht] at hmem
      exact Nat.ne_of_lt hk hmem
    | idle e hnone hcollected =>
      rw [hnone] at hadded
      cases hadded
    | _ => cases hadded

theorem Moves.promised_sublist (h : Moves s e s') :
    (promised s').Sublist (promised s ++ collected s e) := by
  cases h with
  | adds e t ht => exact List.sublist_append_left _ _
  | clears x => exact List.sublist_append_left _ _
  | ticks elapsedMs hidle =>
    rw [promised_callNext, promised, hidle, List.tail_nil, List.append_nil, collected, if_pos hidle]
    exact List.Sublist.refl _
  | returns cb rest hrun =>
    rw [promised_callNext, promised, hrun, List.tail_cons]
    exact List.sublist_append_left _ _
  | throws =>
    rw [promised, promised, List.tail_nil, List.append_nil, List.append_assoc]
    exact List.sublist_append_left _ _
  | idle e he hnone => exact List.sublist_append_left _ _

/-- Only a callback that throws breaks promises. -/
theorem Moves.promised_eq (h : Moves s e s') (hlast : e = .throws → s.running.length ≤ 1) :
    promised s' = promised s ++ collected s e := by
  cases h with
  | adds e t ht =>
    have hnone : collected s e = [] := by
      cases e with
      | tickTimers elapsedMs => cases ht
      | _ => rfl
    rw [hnone, List.append_nil]
    rfl
  | clears x => exact (List.append_nil _).symm
  | ticks elapsedMs hidle =>
    rw [promised_callNext, promised, hidle, List.tail_nil, List.append_nil, collected, if_pos hidle]
    rfl
  | returns cb rest hrun =>
    rw [promised_callNext, promised, hrun, List.tail_cons]
    exact (List.append_nil _).symm
  | throws =>
    have htail : s.running.tail = [] := by
      refine List.length_eq_zero_iff.mp ?_
      have hle := hlast rfl
      rw [List.length_tail]
      omega
    rw [promised, promised, htail]
    exact (List.append_nil _).symm
  | idle e he hnone => rw [hnone, List.append_nil]

theorem collected_subset (s : JsState) (e : Event) :
    ∀ k ∈ collected s e, k ∈ s.timers.map (·.cb) := by
  intro k hk
  cases e with
  | tickTimers elapsedMs =>
    rw [collected] at hk
    split at hk
    · obtain ⟨t, ht, hcb⟩ := List.mem_map.mp hk
      exact List.mem_map.mpr ⟨t, List.mem_of_mem_filter ht, hcb⟩
    · cases hk
  | _ => cases hk

theorem Moves.count_promised_le (h : Moves s e s') {k : RootedFn}
    (hgone : k ∉ s.timers.map (·.cb)) : (promised s').count k ≤ (promised s).count k := by
  have hnone : (collected s e).count k = 0 :=
    List.count_eq_zero.mpr (fun hk ↦ hgone (collected_subset s e k hk))
  have hle := h.promised_sublist.count_le k
  rwa [List.count_append, hnone, Nat.add_zero] at hle

end Steps

section Grounds

variable {s s' : JsState} {e : Event} {born : List (JsState × Event)} {k : RootedFn}
  {events : List Event}

def timeoutDue (born : List (JsState × Event)) (k : RootedFn) : Option ℕ :=
  match born[k]? with
  | some (s, .setTimeout ms) => some (saturatingAdd s.clock ms.toNat)
  | _ => none

/-- What holds of every state, whatever went before: a timer in the list is as its call made it, and
a timeout is in the list or has been called, in time and once. -/
structure Grounded (s : JsState) (born : List (JsState × Event)) : Prop where
  roots : s.roots = born.length
  known : ∀ t ∈ s.timers, t.cb < s.roots
  calledKnown : ∀ k ∈ calls s, k < s.roots
  runningKnown : ∀ k ∈ s.running, k < s.roots
  ascending : (s.timers.map (·.cb)).Nodup
  timeouts : ∀ t ∈ s.timers, ∀ due, timeoutDue born t.cb = some due →
    t.kind = .timeout ∧ t.due = due
  owed : ∀ k ∈ s.running, ∀ due, timeoutDue born k = some due → due ≤ s.clock
  onTime : ∀ x ∈ s.called, ∀ due, timeoutDue born x.1 = some due → due ≤ x.2
  once : ∀ k due, timeoutDue born k = some due →
    (promised s).count k + (s.timers.map (·.cb)).count k ≤ 1

theorem timeoutDue_append (h : k < born.length) (more : List (JsState × Event)) :
    timeoutDue (born ++ more) k = timeoutDue born k := by
  rw [timeoutDue, List.getElem?_append_left h, timeoutDue]

theorem timeoutDue_lt {due : ℕ} (h : timeoutDue born k = some due) : k < born.length := by
  by_contra hge
  rw [timeoutDue, List.getElem?_eq_none (Nat.le_of_not_lt hge)] at h
  cases h

theorem timeoutDue_added {t : TimerEntry} (h : added s e = some t) {due : ℕ}
    (hdue : timeoutDue (born ++ [(s, e)]) born.length = some due) :
    t.kind = .timeout ∧ t.due = due := by
  rw [timeoutDue, List.getElem?_concat_length] at hdue
  cases e with
  | setTimeout ms =>
    cases h
    exact ⟨rfl, Option.some.inj hdue⟩
  | _ => cases hdue

theorem grounded_new : Grounded .new [] where
  roots := rfl
  known := List.forall_mem_nil _
  calledKnown := List.forall_mem_nil _
  runningKnown := List.forall_mem_nil _
  ascending := List.nodup_nil
  timeouts := List.forall_mem_nil _
  owed := List.forall_mem_nil _
  onTime := List.forall_mem_nil _
  once _ _ h := absurd (timeoutDue_lt h) (Nat.not_lt_zero _)

theorem Grounded.adds (h : Grounded s born) {t : TimerEntry} (ht : added s e = some t) :
    Grounded { s with roots := s.roots + 1, timers := s.timers ++ [t] } (born ++ [(s, e)]) := by
  have hcb : t.cb = s.roots := added_cb ht
  have hfresh : s.roots ∉ s.timers.map (·.cb) := by
    intro hmem
    obtain ⟨t', ht', heq⟩ := List.mem_map.mp hmem
    have hlt := h.known t' ht'
    rw [heq] at hlt
    exact Nat.lt_irrefl _ hlt
  have hold : ∀ k < s.roots, timeoutDue (born ++ [(s, e)]) k = timeoutDue born k :=
    fun k hk ↦ timeoutDue_append (h.roots ▸ hk) _
  refine ⟨by simp [h.roots], ?_, ?_, ?_, ?_, ?_, ?_, ?_, ?_⟩
  · intro t' ht'
    rcases List.mem_append.mp ht' with hmem | hmem
    · exact Nat.lt_succ_of_lt (h.known t' hmem)
    · rw [List.mem_singleton.mp hmem, hcb]
      exact Nat.lt_succ_self _
  · exact fun k hk ↦ Nat.lt_succ_of_lt (h.calledKnown k hk)
  · exact fun k hk ↦ Nat.lt_succ_of_lt (h.runningKnown k hk)
  · rw [List.map_append, List.map_singleton, hcb, List.nodup_append]
    refine ⟨h.ascending, List.nodup_singleton _, fun k hk k' hk' heq ↦ hfresh ?_⟩
    rwa [← List.mem_singleton.mp hk', ← heq]
  · intro t' ht' due hdue
    rcases List.mem_append.mp ht' with hmem | hmem
    · rw [hold _ (h.known t' hmem)] at hdue
      exact h.timeouts t' hmem due hdue
    · rw [List.mem_singleton.mp hmem] at hdue ⊢
      rw [hcb, h.roots] at hdue
      exact timeoutDue_added ht hdue
  · intro k hk due hdue
    rw [hold k (h.runningKnown k hk)] at hdue
    exact h.owed k hk due hdue
  · intro x hx due hdue
    rw [hold _ (h.calledKnown _ (List.mem_map_of_mem hx))] at hdue
    exact h.onTime x hx due hdue
  · intro k due hdue
    have hlt := timeoutDue_lt hdue
    rw [List.length_append, List.length_singleton, ← h.roots] at hlt
    rw [List.map_append, List.map_singleton, hcb, List.count_append]
    rcases Nat.lt_or_eq_of_le (Nat.le_of_lt_succ hlt) with hold' | hnew
    · rw [hold k hold'] at hdue
      have hother : List.count k [s.roots] = 0 :=
        List.count_eq_zero.mpr (fun hmem ↦ Nat.ne_of_lt hold' (List.mem_singleton.mp hmem))
      rw [hother, Nat.add_zero]
      exact h.once k due hdue
    · have hcalls : s.roots ∉ promised s := by
        intro hmem
        rcases List.mem_append.mp hmem with hmem | hmem
        · exact Nat.lt_irrefl _ (h.calledKnown _ hmem)
        · exact Nat.lt_irrefl _ (h.runningKnown _ (List.mem_of_mem_tail hmem))
      rw [hnew, List.count_eq_zero.mpr hfresh]
      have hnone : List.count s.roots (promised s) = 0 := List.count_eq_zero.mpr hcalls
      have hself : List.count s.roots [s.roots] = 1 := List.count_singleton_self
      have hgoal : promised { s with roots := s.roots + 1, timers := s.timers ++ [t] } =
          promised s := rfl
      rw [hgoal, hnone, hself]

theorem Grounded.fewer (h : Grounded s born) {timers : List TimerEntry}
    (hsub : timers.Sublist s.timers) : Grounded { s with timers := timers } born where
  roots := h.roots
  known t ht := h.known t (hsub.subset ht)
  calledKnown := h.calledKnown
  runningKnown := h.runningKnown
  ascending := h.ascending.sublist (hsub.map _)
  timeouts t ht := h.timeouts t (hsub.subset ht)
  owed := h.owed
  onTime := h.onTime
  once k due hdue := by
    have hle := h.once k due hdue
    have hcount := (hsub.map (·.cb)).count_le k
    have hsame : promised { s with timers := timers } = promised s := rfl
    rw [hsame]
    exact (Nat.add_le_add_left hcount _).trans hle

/-- The first of the callbacks left is called in time, for it is due. -/
theorem Grounded.callNext (h : Grounded s born)
    (honce : ∀ k due, timeoutDue born k = some due →
      (calls s ++ s.running).count k + (s.timers.map (·.cb)).count k ≤ 1) :
    Grounded s.callNext born where
  roots := by rw [callNext_roots, h.roots]
  known t ht := by
    rw [callNext_timers] at ht
    rw [callNext_roots]
    exact h.known t ht
  calledKnown k hk := by
    obtain ⟨x, hx, rfl⟩ := List.mem_map.mp hk
    rw [callNext_roots]
    rcases mem_called_callNext hx with hx | hx
    · exact h.calledKnown _ (List.mem_map_of_mem hx)
    · exact h.runningKnown _ hx.1
  runningKnown k hk := by
    rw [callNext_running] at hk
    rw [callNext_roots]
    exact h.runningKnown k hk
  ascending := by
    rw [callNext_timers]
    exact h.ascending
  timeouts t ht := by
    rw [callNext_timers] at ht
    exact h.timeouts t ht
  owed k hk := by
    rw [callNext_running] at hk
    rw [callNext_clock]
    exact h.owed k hk
  onTime x hx due hdue := by
    rcases mem_called_callNext hx with hx | ⟨hrun, hclock⟩
    · exact h.onTime x hx due hdue
    · rw [hclock]
      exact h.owed _ hrun due hdue
  once k due hdue := by
    rw [promised_callNext, callNext_timers]
    exact honce k due hdue

theorem count_collect (clock : ℕ) (timers : List TimerEntry)
    (htimeout : ∀ t ∈ timers, t.cb = k → t.kind = .timeout) :
    ((timers.filter (fun t ↦ t.due ≤ clock)).map (·.cb)).count k +
      ((timers.filterMap (JsState.rearm clock)).map (·.cb)).count k ≤ (timers.map (·.cb)).count k := by
  induction timers with
  | nil => exact Nat.le_refl _
  | cons t timers ih =>
    obtain ⟨hkind, htimeout⟩ := List.forall_mem_cons.mp htimeout
    have hrest := ih htimeout
    rw [List.filterMap_cons, List.map_cons, List.count_cons, List.filter_cons]
    by_cases hdue : t.due ≤ clock
    · rw [if_pos (decide_eq_true hdue), List.map_cons, List.count_cons]
      cases hrearm : JsState.rearm clock t with
      | none =>
        simp only
        omega
      | some t' =>
        have hne : t.cb ≠ k := by
          intro heq
          have hlt := ((rearm_cb hrearm).2.2 (hkind heq)).2
          omega
        simp only [List.map_cons, List.count_cons, (rearm_cb hrearm).1, beq_eq_false_iff_ne.mpr hne]
        simpa using hrest
    · have hrearm : JsState.rearm clock t = some t := by
        rw [JsState.rearm, if_neg hdue]
      rw [if_neg (by simpa using hdue), hrearm]
      simp only [List.map_cons, List.count_cons]
      omega

theorem Grounded.collect (h : Grounded s born) (hidle : s.running = []) (elapsedMs : ℕ) :
    Grounded (s.collect elapsedMs).callNext born := by
  have hpromised : promised s = calls s := by rw [promised, hidle, List.tail_nil, List.append_nil]
  have hsub := rearm_sublist (saturatingAdd s.clock elapsedMs) s.timers
  have honce : ∀ k due, timeoutDue born k = some due →
      (calls s ++ (s.collect elapsedMs).running).count k +
        ((s.collect elapsedMs).timers.map (·.cb)).count k ≤ 1 := by
    intro k due hdue
    have hle := h.once k due hdue
    have hcollect := @count_collect k (saturatingAdd s.clock elapsedMs) s.timers (fun t ht heq ↦
      (h.timeouts t ht due (heq ▸ hdue)).1)
    rw [hpromised] at hle
    rw [List.count_append, Nat.add_assoc]
    exact (Nat.add_le_add_left hcollect _).trans hle
  have hmem : ∀ k ∈ (s.collect elapsedMs).running, ∃ t ∈ s.timers, t.cb = k ∧
      t.due ≤ (s.collect elapsedMs).clock := by
    intro k hk
    obtain ⟨t, ht, hcb⟩ := List.mem_map.mp hk
    obtain ⟨ht, hdue⟩ := List.mem_filter.mp ht
    exact ⟨t, ht, hcb, of_decide_eq_true hdue⟩
  refine Grounded.callNext ⟨h.roots, ?_, h.calledKnown, ?_, h.ascending.sublist hsub, ?_, ?_, h.onTime,
    ?_⟩ honce
  · intro t ht
    obtain ⟨t', ht', hcb⟩ := List.mem_map.mp (hsub.subset (List.mem_map_of_mem ht))
    rw [← hcb]
    exact h.known t' ht'
  · intro k hk
    obtain ⟨t, ht, hcb, -⟩ := hmem k hk
    rw [← hcb]
    exact h.known t ht
  · intro t ht due hdue
    obtain ⟨t', ht', hrearm⟩ := List.mem_filterMap.mp ht
    obtain ⟨hcb, -, hsame⟩ := rearm_cb hrearm
    rw [hcb] at hdue
    obtain ⟨hkind, hvalue⟩ := h.timeouts t' ht' due hdue
    rw [(hsame hkind).1]
    exact ⟨hkind, hvalue⟩
  · intro k hk due hdue
    obtain ⟨t, ht, hcb, hle⟩ := hmem k hk
    rw [← hcb] at hdue
    rw [← (h.timeouts t ht due hdue).2]
    exact hle
  · intro k due hdue
    have hle := honce k due hdue
    have htail : (promised (s.collect elapsedMs)).count k ≤
        (calls s ++ (s.collect elapsedMs).running).count k := by
      rw [promised, List.count_append, List.count_append]
      exact Nat.add_le_add_left ((List.tail_sublist _).count_le k) _
    exact (Nat.add_le_add_right htail _).trans hle

/-- Where callbacks are dropped, all that is lost is what was promised. -/
theorem Grounded.drops (h : Grounded s born) {running : List RootedFn}
    (hsub : running.Sublist s.running.tail) : Grounded { s with running := running } born where
  roots := h.roots
  known := h.known
  calledKnown := h.calledKnown
  runningKnown k hk := h.runningKnown k (List.mem_of_mem_tail (hsub.subset hk))
  ascending := h.ascending
  timeouts := h.timeouts
  owed k hk := h.owed k (List.mem_of_mem_tail (hsub.subset hk))
  onTime := h.onTime
  once k due hdue := by
    have hle := h.once k due hdue
    have hfewer : (promised { s with running := running }).Sublist (promised s) :=
      List.Sublist.append (List.Sublist.refl _) ((List.tail_sublist _).trans hsub)
    exact (Nat.add_le_add_right (hfewer.count_le k) _).trans hle

theorem grounded_step (h : Grounded s born) (hmoves : Moves s e s') :
    Grounded s' (born ++ if (added s e).isSome then [(s, e)] else []) := by
  cases hmoves with
  | adds e t ht =>
    rw [ht, Option.isSome_some, if_pos rfl]
    exact h.adds ht
  | clears x =>
    simpa [added] using h.fewer (List.eraseIdx_sublist _ _)
  | ticks elapsedMs hidle =>
    simpa [added] using h.collect hidle _
  | returns cb rest hrun =>
    have hdrops : Grounded { s with running := rest } born :=
      h.drops (by rw [hrun, List.tail_cons])
    have hcall : Grounded { s with running := rest }.callNext born := by
      refine hdrops.callNext (fun k due hdue ↦ ?_)
      have hle := h.once k due hdue
      rwa [promised, hrun, List.tail_cons] at hle
    simpa [added] using hcall
  | throws =>
    simpa [added] using h.drops (List.nil_sublist _)
  | idle e hnone hcollected =>
    rw [hnone, Option.isSome_none, if_neg Bool.false_ne_true, List.append_nil]
    exact h

theorem after_concat (events : List Event) (e : Event) :
    after (events ++ [e]) = (step (after events) e).1 := run_concat events e

theorem births_concat (events : List Event) (e : Event) :
    births (events ++ [e]) =
      births events ++ if (added (after events) e).isSome then [(after events, e)] else [] := by
  rw [births, trace_concat, List.filter_append, List.filter_singleton, Bool.cond_eq_ite]
  rfl

theorem grounded_run (events : List Event) : Grounded (after events) (births events) := by
  induction events using List.reverseRecOn with
  | nil => exact grounded_new
  | append_singleton events e ih =>
    rw [births_concat, after_concat]
    exact grounded_step ih (step_moves _ _)

end Grounds

end Aldivine.Javascript.Registry
