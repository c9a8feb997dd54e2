import Aldivine.Javascript.Registry

namespace Aldivine.Javascript.Identities

open Foundation Foundation.Execution Timers Registry

def asId : Answer → Option (BitVec 64)
  | .id x => some x
  | _ => none

def idOf (events : List Event) (k : RootedFn) : Option (BitVec 64) :=
  (births events)[k]?.bind (fun b ↦ asId (step b.1 b.2).2)

def placeOf (events : List Event) (k : RootedFn) : Option ℕ :=
  (births events)[k]?.map (fun b ↦ b.1.timers.length)

/-- What scripts may rely on in a history: that an id tells its timer, and that timers fire when and
only when they are due. -/
structure Upheld (events : List Event) : Prop where
  distinct : ∀ before, before <+: events → ((pending before).map (idOf before)).Nodup
  clears : ∀ before x, before ++ [.clear x] <+: events →
    (after (before ++ [.clear x])).timers =
      (after before).timers.filter (fun t ↦ idOf before t.cb ≠ some x)
  stale : ∀ before x, before ++ [.clear x] <+: events → ∀ k ∉ pending before,
    idOf before k = some x → (after (before ++ [.clear x])).timers = (after before).timers
  once : ∀ k s ms, (births events)[k]? = some (s, .setTimeout ms) →
    (calls (after events)).count k ≤ 1
  onTime : ∀ k s ms clock, (births events)[k]? = some (s, .setTimeout ms) →
    (k, clock) ∈ (after events).called → saturatingAdd s.clock ms.toNat ≤ clock
  silenced : ∀ before x, before ++ [.clear x] <+: events → ∀ k ∈ pending before,
    idOf before k = some x → (calls (after events)).count k ≤ (promised (after before)).count k
  allDue : ∀ before elapsedMs between, before ++ .tickTimers elapsedMs :: between <+: events →
    (after before).running = [] →
    (after (before ++ .tickTimers elapsedMs :: between)).running = [] →
    calls (after before) ++ ((after before).collect elapsedMs.toNat).running <+:
      calls (after (before ++ .tickTimers elapsedMs :: between))

def InPlace (events : List Event) : Prop :=
  ∀ i t, (after events).timers[i]? = some t → placeOf events t.cb = some i

/-- Timers are added and cleared only while none has moved; a number that points into the list is
the whole number that it points with, which nobody was given for a timer that is gone; and only the
last of the due callbacks throws. -/
def Steady (before : List Event) : Event → Prop
  | .setTimeout _ | .setInterval _ => InPlace before ∧ (after before).timers.length ≤ 2 ^ 53
  | .clear x =>
    InPlace before ∧ (Doubles.toNat x < (after before).timers.length →
      x = Doubles.ofNat (Doubles.toNat x) ∧
        ∀ k, placeOf before k = some (Doubles.toNat x) → k ∈ pending before)
  | .throws => (after before).running.length ≤ 1
  | .tickTimers _ | .returns => True

def SteadyRun (events : List Event) : Prop :=
  ∀ before e, before ++ [e] <+: events → Steady before e

section Prefixes

variable {before events : List Event} {k : RootedFn}

theorem births_prefix (h : before <+: events) : births before <+: births events := by
  obtain ⟨rest, rfl⟩ := h
  rw [births, births, trace_append, List.filter_append]
  exact List.prefix_append _ _

theorem added_of_mem_births {b : JsState × Event} (h : b ∈ births events) :
    ∃ t, added b.1 b.2 = some t :=
  Option.isSome_iff_exists.mp (List.mem_filter.mp h).2

theorem asId_of_added {s : JsState} {e : Event} {t : TimerEntry} (h : added s e = some t) :
    asId (step s e).2 = some (Doubles.ofNat s.timers.length) := by
  cases e with
  | setTimeout ms => rfl
  | setInterval ms => rfl
  | _ => cases h

theorem idOf_eq (events : List Event) (k : RootedFn) :
    idOf events k = (placeOf events k).map Doubles.ofNat := by
  rw [idOf, placeOf]
  cases hb : (births events)[k]? with
  | none => rfl
  | some b =>
    obtain ⟨t, ht⟩ := added_of_mem_births (List.mem_of_getElem? hb)
    exact asId_of_added ht

end Prefixes

section Alignment

variable {first events : List Event} {k : RootedFn} {x : BitVec 64}

/-- Along steady runs places are told apart, and so are the doubles that stand for them. -/
structure Aligned (events : List Event) : Prop where
  distinct : ((pending events).map (placeOf events)).Nodup
  small : ∀ k i, placeOf events k = some i → i ≤ 2 ^ 53

theorem SteadyRun.before (h : SteadyRun events) (hpre : first <+: events) : SteadyRun first :=
  fun before e hbefore ↦ h before e (hbefore.trans hpre)

theorem ofNat_injOn {i j : ℕ} (hi : i ≤ 2 ^ 53) (hj : j ≤ 2 ^ 53)
    (h : Doubles.ofNat i = Doubles.ofNat j) : i = j := by
  rw [← Doubles.toNat_ofNat hi, h, Doubles.toNat_ofNat hj]

theorem Aligned.ids (h : Aligned events) : ((pending events).map (idOf events)).Nodup := by
  have hids : (pending events).map (idOf events) =
      ((pending events).map (placeOf events)).map (Option.map Doubles.ofNat) := by
    rw [List.map_map]
    exact List.map_congr_left (fun k _ ↦ idOf_eq events k)
  rw [hids]
  refine h.distinct.map_on (fun p hp q hq heq ↦ ?_)
  obtain ⟨k, -, hk⟩ := List.mem_map.mp hp
  obtain ⟨l, -, hl⟩ := List.mem_map.mp hq
  cases p with
  | none =>
    cases q with
    | none => rfl
    | some j => cases heq
  | some i =>
    cases q with
    | none => cases heq
    | some j =>
      exact congrArg some (ofNat_injOn (h.small k i hk) (h.small l j hl) (Option.some.inj heq))

theorem pending_lt (h : k ∈ pending events) : k < (births events).length := by
  obtain ⟨t, ht, rfl⟩ := List.mem_map.mp h
  rw [← (grounded_run events).roots]
  exact (grounded_run events).known t ht

theorem placeOf_pending (h : k ∈ pending first) (hpre : first <+: events) :
    placeOf events k = placeOf first k := by
  obtain ⟨rest, hrest⟩ := births_prefix hpre
  rw [placeOf, ← hrest, List.getElem?_append_left (pending_lt h), placeOf]

/-- Whoever stands where it was put stands at a place that no other has. -/
theorem inPlace_iff : InPlace events ↔
    (pending events).map (placeOf events) = (List.range (pending events).length).map some := by
  rw [pending, List.map_map, List.length_map]
  constructor
  · intro h
    refine List.ext_getElem? (fun i ↦ ?_)
    rw [List.getElem?_map, List.getElem?_map]
    cases ht : (after events).timers[i]? with
    | none =>
      have hle := List.getElem?_eq_none_iff.mp ht
      rw [List.getElem?_eq_none (by simpa using hle)]
      rfl
    | some t =>
      have hlt := (List.getElem?_eq_some_iff.mp ht).1
      rw [List.getElem?_range hlt, Option.map_some, Option.map_some]
      exact congrArg some (h i t ht)
  · intro h i t ht
    have hlt := (List.getElem?_eq_some_iff.mp ht).1
    have hplace := congrArg (fun l ↦ l[i]?) h
    simp only [List.getElem?_map, ht, List.getElem?_range hlt, Option.map_some] at hplace
    exact Option.some.inj hplace

instance (events : List Event) : Decidable (InPlace events) := decidable_of_iff _ inPlace_iff.symm

theorem forall_placed_iff {i : ℕ} : (∀ k, placeOf events k = some i → k ∈ pending events) ↔
    ∀ k < (births events).length, placeOf events k = some i → k ∈ pending events := by
  refine ⟨fun h k _ ↦ h k, fun h k hk ↦ h k ?_ hk⟩
  obtain ⟨b, hb, -⟩ := Option.map_eq_some_iff.mp hk
  exact (List.getElem?_eq_some_iff.mp hb).1

instance (events : List Event) (e : Event) : Decidable (Steady events e) :=
  match e with
  | .setTimeout _ | .setInterval _ => inferInstanceAs (Decidable (_ ∧ _))
  | .clear x =>
    have : Decidable (∀ k, placeOf events k = some (Doubles.toNat x) → k ∈ pending events) :=
      decidable_of_iff _ forall_placed_iff.symm
    inferInstanceAs (Decidable (_ ∧ (_ → _ ∧ _)))
  | .throws => inferInstanceAs (Decidable (_ ≤ _))
  | .tickTimers _ | .returns => inferInstanceAs (Decidable True)

theorem steadyRun_iff :
    SteadyRun events ↔ ∀ i (hi : i < events.length), Steady (events.take i) events[i] := by
  constructor
  · intro h i hi
    refine h _ _ ?_
    rw [← List.take_succ_eq_append_getElem hi]
    exact List.take_prefix _ _
  · rintro h before e ⟨rest, rfl⟩
    have hsteady := h before.length (by simp)
    simpa using hsteady

instance (events : List Event) : Decidable (SteadyRun events) :=
  decidable_of_iff _ steadyRun_iff.symm

theorem aligned_adds {e : Event} {t : TimerEntry} (h : Aligned events)
    (ht : added (after events) e = some t) (hplace : InPlace events)
    (hroom : (after events).timers.length ≤ 2 ^ 53) : Aligned (events ++ [e]) := by
  have hborn : births (events ++ [e]) = births events ++ [(after events, e)] := by
    rw [births_concat, ht, Option.isSome_some, if_pos rfl]
  have hafter : pending (events ++ [e]) = pending events ++ [(after events).roots] := by
    rw [pending, after_concat, timers_of_added ht, List.map_append, List.map_singleton, added_cb ht]
    rfl
  have hnew : placeOf (events ++ [e]) (after events).roots =
      some (after events).timers.length := by
    rw [placeOf, hborn, (grounded_run events).roots, List.getElem?_concat_length, Option.map_some]
  have hold : (pending events).map (placeOf (events ++ [e])) =
      (pending events).map (placeOf events) :=
    List.map_congr_left (fun k hk ↦ placeOf_pending hk (List.prefix_append _ _))
  refine ⟨?_, fun k i hk ↦ ?_⟩
  · rw [hafter, List.map_append, List.map_singleton, hold, hnew, List.nodup_append]
    refine ⟨h.distinct, List.nodup_singleton _, fun p hp q hq heq ↦ ?_⟩
    rw [inPlace_iff.mp hplace, List.mem_map] at hp
    obtain ⟨i, hi, rfl⟩ := hp
    rw [List.mem_range, pending, List.length_map] at hi
    rw [List.mem_singleton.mp hq] at heq
    exact absurd (Option.some.inj heq) (Nat.ne_of_lt hi)
  · obtain ⟨b, hb, hi⟩ := Option.map_eq_some_iff.mp hk
    rw [hborn] at hb
    rcases List.mem_append.mp (List.mem_of_getElem? hb) with hmem | hmem
    · obtain ⟨l, hl, hget⟩ := List.mem_iff_getElem.mp hmem
      refine h.small l i ?_
      rw [placeOf, List.getElem?_eq_getElem hl, hget, Option.map_some, hi]
    · rw [List.mem_singleton.mp hmem] at hi
      rw [← hi]
      exact hroom

theorem aligned_run (h : SteadyRun events) : Aligned events := by
  induction events using List.reverseRecOn with
  | nil => exact ⟨List.nodup_nil, fun k i hk ↦ by cases hk⟩
  | append_singleton events e ih =>
    have hprev := ih (h.before (List.prefix_append _ _))
    have hsteady := h events e List.prefix_rfl
    cases hadded : added (after events) e with
    | some t =>
      cases e with
      | setTimeout ms => exact aligned_adds hprev hadded hsteady.1 hsteady.2
      | setInterval ms => exact aligned_adds hprev hadded hsteady.1 hsteady.2
      | _ => cases hadded
    | none =>
      have hborn : births (events ++ [e]) = births events := by
        rw [births_concat, hadded, Option.isSome_none, if_neg Bool.false_ne_true, List.append_nil]
      have hplaces : placeOf (events ++ [e]) = placeOf events := by
        funext k
        rw [placeOf, hborn, placeOf]
      have hsub : (pending (events ++ [e])).Sublist (pending events) := by
        rw [pending, after_concat]
        exact (step_moves _ _).timers_sublist hadded
      refine ⟨?_, fun k i hk ↦ hprev.small k i (hplaces ▸ hk)⟩
      rw [hplaces]
      exact hprev.distinct.sublist (hsub.map _)

end Alignment

section Clearing

variable {first events : List Event} {k : RootedFn} {x : BitVec 64}

theorem eraseIdx_eq_filter {α : Type} {p : α → Bool} (l : List α) (i : ℕ)
    (h : ∀ j a, l[j]? = some a → (p a = true ↔ j ≠ i)) : l.eraseIdx i = l.filter p := by
  induction l generalizing i with
  | nil => rfl
  | cons a l ih =>
    have hhead := h 0 a rfl
    cases i with
    | zero =>
      have hnot : ¬p a = true := fun hp ↦ hhead.mp hp rfl
      have hall : ∀ b ∈ l, p b = true := by
        intro b hb
        obtain ⟨j, hj⟩ := List.mem_iff_getElem?.mp hb
        exact (h (j + 1) b hj).mpr (Nat.succ_ne_zero j)
      rw [List.eraseIdx_cons_zero, List.filter_cons_of_neg hnot, List.filter_eq_self.mpr hall]
    | succ i =>
      rw [List.eraseIdx_cons_succ, List.filter_cons_of_pos (hhead.mpr (Nat.succ_ne_zero i).symm)]
      exact congrArg (a :: ·)
        (ih i (fun j b hj ↦ (h (j + 1) b hj).trans (not_congr Nat.succ_inj)))

theorem after_clear (events : List Event) (x : BitVec 64) :
    (after (events ++ [.clear x])).timers = (after events).timers.eraseIdx (Doubles.toNat x) := by
  rw [after_concat]
  generalize hs : (step (after events) (.clear x)).1 = s
  have hmoves := step_moves (after events) (.clear x)
  rw [hs] at hmoves
  simp only [step, JsState.clearTimer] at hs
  split at hs
  · rw [← hs]
  · rename_i hlen
    rw [← hs, List.eraseIdx_of_length_le (Nat.le_of_not_lt hlen)]

/-- A steady clear takes out the timer that the id was returned for, and no other. -/
theorem clear_exact (h : Aligned events) (hsteady : Steady events (.clear x)) :
    (after (events ++ [.clear x])).timers =
      (after events).timers.filter (fun t ↦ idOf events t.cb ≠ some x) := by
  obtain ⟨hplace, hwhole⟩ := hsteady
  rw [after_clear]
  refine eraseIdx_eq_filter _ _ (fun j t hj ↦ ?_)
  have hid : idOf events t.cb = some (Doubles.ofNat j) := by
    rw [idOf_eq, hplace j t hj, Option.map_some]
  have hsmall := h.small t.cb j (hplace j t hj)
  rw [decide_eq_true_iff, hid, Ne, Option.some.injEq, not_iff_not]
  constructor
  · intro heq
    rw [← heq, Doubles.toNat_ofNat hsmall]
  · intro heq
    have hlt := (List.getElem?_eq_some_iff.mp hj).1
    rw [heq] at hlt ⊢
    exact (hwhole hlt).1.symm

theorem clear_stale (h : Aligned events) (hsteady : Steady events (.clear x))
    (hk : k ∉ pending events) (hid : idOf events k = some x) :
    (after (events ++ [.clear x])).timers = (after events).timers := by
  obtain ⟨hplace, hwhole⟩ := hsteady
  rw [idOf_eq] at hid
  obtain ⟨i, hi, heq⟩ := Option.map_eq_some_iff.mp hid
  rw [after_clear]
  refine List.eraseIdx_of_length_le (Nat.le_of_not_lt (fun hlt ↦ hk ?_))
  refine (hwhole hlt).2 k ?_
  rw [hi, ← heq, Doubles.toNat_ofNat (h.small k i hi)]

/-- What is no longer in the list does not come back. -/
theorem count_promised_le (hk : k < (after first).roots) (hgone : k ∉ pending first)
    (rest : List Event) :
    k < (after (first ++ rest)).roots ∧ k ∉ pending (first ++ rest) ∧
      (promised (after (first ++ rest))).count k ≤ (promised (after first)).count k := by
  induction rest using List.reverseRecOn with
  | nil =>
    rw [List.append_nil]
    exact ⟨hk, hgone, Nat.le_refl _⟩
  | append_singleton rest e ih =>
    obtain ⟨hlt, hnot, hle⟩ := ih
    have hmoves := step_moves (after (first ++ rest)) e
    rw [← List.append_assoc, after_concat, pending, after_concat]
    refine ⟨hlt.trans_le hmoves.roots_le, hmoves.gone hlt hnot, ?_⟩
    exact (hmoves.count_promised_le hnot).trans hle

end Clearing

section Histories

variable {first events : List Event} {k : RootedFn} {x : BitVec 64}

/-- A steady run keeps its promises. -/
theorem promised_prefix (h : SteadyRun events) (hpre : first <+: events) :
    promised (after first) <+: promised (after events) := by
  obtain ⟨rest, rfl⟩ := hpre
  induction rest using List.reverseRecOn with
  | nil => simp
  | append_singleton rest e ih =>
    rw [← List.append_assoc] at h ⊢
    have hsteady := h (first ++ rest) e List.prefix_rfl
    have hlast : e = .throws → (after (first ++ rest)).running.length ≤ 1 := by
      intro he
      rw [he] at hsteady
      exact hsteady
    have heq := (step_moves (after (first ++ rest)) e).promised_eq hlast
    rw [after_concat, heq]
    exact (ih (h.before (List.prefix_append _ _))).trans (List.prefix_append _ _)

theorem all_due {elapsedMs : BitVec 64} {between : List Event}
    (h : SteadyRun (first ++ .tickTimers elapsedMs :: between)) (hidle : (after first).running = [])
    (hended : (after (first ++ .tickTimers elapsedMs :: between)).running = []) :
    calls (after first) ++ ((after first).collect elapsedMs.toNat).running <+:
      calls (after (first ++ .tickTimers elapsedMs :: between)) := by
  have hkept := promised_prefix h ⟨between, (List.append_cons _ _ _).symm⟩
  have htick := (step_moves (after first) (.tickTimers elapsedMs)).promised_eq (by simp)
  rw [after_concat, htick, promised, hidle, List.tail_nil, List.append_nil, collected,
    if_pos hidle] at hkept
  rwa [promised, hended, List.tail_nil, List.append_nil] at hkept

theorem silenced (h : SteadyRun events) (hpre : first ++ [.clear x] <+: events)
    (hk : k ∈ pending first) (hid : idOf first k = some x) :
    (calls (after events)).count k ≤ (promised (after first)).count k := by
  have hsteady := h first (.clear x) hpre
  have haligned := aligned_run (h.before ((List.prefix_append _ _).trans hpre))
  have hgone : k ∉ pending (first ++ [.clear x]) := by
    intro hmem
    rw [pending, clear_exact haligned hsteady] at hmem
    obtain ⟨t, ht, rfl⟩ := List.mem_map.mp hmem
    exact of_decide_eq_true (List.mem_filter.mp ht).2 hid
  have hknown : k < (after (first ++ [.clear x])).roots := by
    rw [after_concat]
    refine Nat.lt_of_lt_of_le ?_ (step_moves _ _).roots_le
    rw [(grounded_run first).roots]
    exact pending_lt hk
  obtain ⟨rest, rfl⟩ := hpre
  have hle := (count_promised_le hknown hgone rest).2.2
  have hclear : promised (after (first ++ [.clear x])) = promised (after first) := by
    rw [after_concat, (step_moves _ _).promised_eq (by simp)]
    exact List.append_nil _
  rw [hclear] at hle
  exact ((List.sublist_append_left _ _).count_le k).trans hle

theorem timeoutDue_of_birth {s : JsState} {ms : BitVec 64}
    (h : (births events)[k]? = some (s, .setTimeout ms)) :
    timeoutDue (births events) k = some (saturatingAdd s.clock ms.toNat) := by
  rw [timeoutDue, h]

/-- As long as timers are added and cleared where none has moved, and no callback throws before
another that is due, ids tell timers apart and timers fire as they are to. -/
theorem upheld_of_steady (h : SteadyRun events) : Upheld events where
  distinct before hpre := (aligned_run (h.before hpre)).ids
  clears before x hpre :=
    clear_exact (aligned_run (h.before ((List.prefix_append _ _).trans hpre)))
      (h before (.clear x) hpre)
  stale before x hpre k hk hid :=
    clear_stale (aligned_run (h.before ((List.prefix_append _ _).trans hpre)))
      (h before (.clear x) hpre) hk hid
  once k s ms hborn := by
    have hle := (grounded_run events).once k _ (timeoutDue_of_birth hborn)
    have hcalls : (calls (after events)).count k ≤ (promised (after events)).count k :=
      (List.sublist_append_left _ _).count_le k
    exact hcalls.trans ((Nat.le_add_right _ _).trans hle)
  onTime k s ms clock hborn hcalled :=
    (grounded_run events).onTime _ hcalled _ (timeoutDue_of_birth hborn)
  silenced before x hpre k hk hid := silenced h hpre hk hid
  allDue before elapsedMs between hpre hidle hended := all_due (h.before hpre) hidle hended

end Histories

section Example

/-- Two timeouts, of which the later one is due first, and an interval that is cleared. When both
have fired, another is added. -/
def descending : List Event :=
  [.setTimeout 20, .setTimeout 10, .setInterval 30, .clear (Doubles.ofNat 2), .tickTimers 10,
    .returns, .tickTimers 10, .throws, .setTimeout 5]

theorem descending_upheld : Upheld descending := upheld_of_steady (by decide +kernel)

/-- The timer that fired moves the other one, whose id the next timer is given then. -/
def ascending : List Event :=
  [.setTimeout 10, .setTimeout 20, .tickTimers 10, .returns, .setTimeout 5]

/-- Of two timeouts that are due together, the second is dropped where the first one throws. -/
def thrown : List Event := [.setTimeout 10, .setTimeout 10, .tickTimers 10, .throws]

theorem not_upheld : ¬Upheld ascending ∧ ¬Upheld thrown := by
  constructor
  · intro h
    have hdistinct := h.distinct ascending List.prefix_rfl
    exact absurd hdistinct (by decide +kernel)
  · intro h
    have hdue := h.allDue [.setTimeout 10, .setTimeout 10] 10 [.throws] List.prefix_rfl rfl rfl
    exact absurd hdue (by decide +kernel)

end Example

end Aldivine.Javascript.Identities
