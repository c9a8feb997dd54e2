import Mathlib.Data.List.DropRight
import Mathlib.Data.List.Forall2

namespace Aldivine.Foundation.Execution

variable {σ ι ο : Type}

/-- The state a component is in after answering a finite sequence of inputs. -/
def run (step : σ → ι → σ × ο) (s : σ) (inputs : List ι) : σ :=
  inputs.foldl (fun s i ↦ (step s i).1) s

def trace (step : σ → ι → σ × ο) : σ → List ι → List (σ × ι)
  | _, [] => []
  | s, i :: inputs => (s, i) :: trace step (step s i).1 inputs

def answers (step : σ → ι → σ × ο) (s : σ) (inputs : List ι) : List (ι × ο) :=
  (trace step s inputs).map (fun x ↦ (x.2, (step x.1 x.2).2))

variable {step : σ → ι → σ × ο} {s : σ}

@[simp] theorem run_nil : run step s [] = s := rfl

@[simp] theorem run_cons (i : ι) (inputs : List ι) :
    run step s (i :: inputs) = run step (step s i).1 inputs := rfl

theorem run_append (first second : List ι) :
    run step s (first ++ second) = run step (run step s first) second :=
  List.foldl_append

theorem run_concat (inputs : List ι) (i : ι) :
    run step s (inputs ++ [i]) = (step (run step s inputs) i).1 := by
  rw [run_append]
  rfl

theorem trace_append (first second : List ι) :
    trace step s (first ++ second) =
      trace step s first ++ trace step (run step s first) second := by
  induction first generalizing s with
  | nil => rfl
  | cons i first ih => simp only [List.cons_append, trace, ih, run_cons]

theorem trace_concat (inputs : List ι) (i : ι) :
    trace step s (inputs ++ [i]) = trace step s inputs ++ [(run step s inputs, i)] :=
  trace_append inputs [i]

theorem answers_concat (inputs : List ι) (i : ι) :
    answers step s (inputs ++ [i]) =
      answers step s inputs ++ [(i, (step (run step s inputs) i).2)] := by
  simp only [answers, trace_concat, List.map_append, List.map_cons, List.map_nil]

theorem answers_inputs (step : σ → ι → σ × ο) (s : σ) (inputs : List ι) :
    (answers step s inputs).map (·.1) = inputs := by
  induction inputs using List.reverseRecOn with
  | nil => rfl
  | append_singleton inputs i ih => rw [answers_concat, List.map_append, ih, List.map_singleton]

theorem answers_cons (step : σ → ι → σ × ο) (s : σ) (i : ι) (inputs : List ι) :
    answers step s (i :: inputs) = (i, (step s i).2) :: answers step (step s i).1 inputs := rfl

/-- The inputs that `p` selects are answered as if there were no others. -/
theorem answers_filter {R : σ → σ → Prop} {p : ι → Bool}
    (hself : ∀ s s' i, p i = true → R s s' →
      (step s' i).2 = (step s i).2 ∧ R (step s i).1 (step s' i).1)
    (hother : ∀ s s' i, p i = false → R s s' → R (step s i).1 s') {s s' : σ} (hs : R s s')
    (inputs : List ι) :
    (answers step s inputs).filter (fun x ↦ p x.1) = answers step s' (inputs.filter p) := by
  induction inputs generalizing s s' with
  | nil => rfl
  | cons i inputs ih =>
    rw [answers_cons, List.filter_cons, List.filter_cons]
    cases hi : p i with
    | true =>
      obtain ⟨hanswer, hnext⟩ := hself s s' i hi hs
      simp only [if_true]
      rw [answers_cons, ih hnext, hanswer]
    | false =>
      simp only [Bool.false_eq_true, if_false]
      exact ih (hother s s' i hi hs)

theorem mem_trace {inputs : List ι} {x : σ × ι} (hx : x ∈ trace step s inputs) :
    ∃ before after, inputs = before ++ x.2 :: after ∧ x.1 = run step s before := by
  induction inputs generalizing s with
  | nil => cases hx
  | cons i inputs ih =>
    rcases List.mem_cons.mp hx with rfl | hx
    · exact ⟨[], inputs, rfl, rfl⟩
    · obtain ⟨before, after, rfl, he⟩ := ih hx
      exact ⟨i :: before, after, rfl, he⟩

/-- An invariant that every admissible step preserves holds after every run of admissible steps. -/
theorem invariant_run {I : σ → Prop} {P : σ → ι → Prop}
    (hstep : ∀ s i, I s → P s i → I (step s i).1) (hs : I s) (inputs : List ι)
    (hP : ∀ x ∈ trace step s inputs, P x.1 x.2) : I (run step s inputs) := by
  induction inputs generalizing s with
  | nil => exact hs
  | cons i inputs ih =>
    have hi := hstep s i hs (hP (s, i) List.mem_cons_self)
    exact ih hi (fun x hx ↦ hP x (List.mem_cons_of_mem _ hx))

theorem invariant_all {I : σ → Prop} (hstep : ∀ s i, I s → I (step s i).1) (hs : I s)
    (inputs : List ι) : I (run step s inputs) :=
  invariant_run (P := fun _ _ ↦ True) (fun s i h _ ↦ hstep s i h) hs inputs (fun _ _ ↦ trivial)

/-- What every admissible step preserves, of the state and of the steps taken so far, holds after
every run of admissible steps. -/
theorem invariant_trace {I : σ → List (σ × ι) → Prop} {P : σ → ι → Prop}
    (hstep : ∀ s tr i, I s tr → P s i → I (step s i).1 (tr ++ [(s, i)])) (hs : I s [])
    (inputs : List ι) (hP : ∀ x ∈ trace step s inputs, P x.1 x.2) :
    I (run step s inputs) (trace step s inputs) := by
  induction inputs using List.reverseRecOn with
  | nil => exact hs
  | append_singleton inputs i ih =>
    rw [trace_concat, List.forall_mem_append, List.forall_mem_singleton] at hP
    rw [run_concat, trace_concat]
    exact hstep _ _ i (ih hP.1) hP.2

/-- When a step keeps `I` exactly in the states and on the inputs that satisfy `P`, a run stays
inside `I` throughout exactly when all of its steps satisfy `P`. -/
theorem invariant_run_iff {B I : σ → Prop} {P : σ → ι → Prop}
    (hbase : ∀ s i, B s → B (step s i).1)
    (hstep : ∀ s i, B s → I s → (I (step s i).1 ↔ P s i))
    (hB : B s) (hI : I s) (inputs : List ι) :
    (∀ before, before <+: inputs → I (run step s before)) ↔
      ∀ x ∈ trace step s inputs, P x.1 x.2 := by
  constructor
  · intro h x hx
    obtain ⟨before, after, rfl, he⟩ := mem_trace hx
    have hnow := h before (List.prefix_append _ _)
    have hnext := h (before ++ [x.2]) ⟨after, by simp⟩
    rw [run_concat, ← he] at hnext
    rw [← he] at hnow
    exact (hstep _ _ (he ▸ invariant_all hbase hB before) hnow).mp hnext
  · rintro h before ⟨after, rfl⟩
    rw [trace_append] at h
    have hBI : B (run step s before) ∧ I (run step s before) := by
      refine invariant_run (I := fun s ↦ B s ∧ I s) (P := P) ?_ ⟨hB, hI⟩ before
        (fun x hx ↦ h x (List.mem_append_left _ hx))
      exact fun s i hs hp ↦ ⟨hbase s i hs.1, (hstep s i hs.1 hs.2).mpr hp⟩
    exact hBI.2

variable (step s) in
/-- `P` holds of every input of a run, the state it arrives in and what was answered before it. -/
def Throughout (P : σ → List (ι × ο) → ι → Prop) (inputs : List ι) : Prop :=
  ∀ before i, before ++ [i] <+: inputs → P (run step s before) (answers step s before) i

theorem throughout_nil {P : σ → List (ι × ο) → ι → Prop} : Throughout step s P [] := by
  intro before i hpre
  exact absurd (List.prefix_nil.mp hpre) (List.concat_ne_nil _ _)

theorem throughout_concat {P : σ → List (ι × ο) → ι → Prop} {inputs : List ι} {i : ι} :
    Throughout step s P (inputs ++ [i]) ↔
      Throughout step s P inputs ∧ P (run step s inputs) (answers step s inputs) i := by
  constructor
  · intro h
    exact ⟨fun before j hpre ↦ h before j (hpre.trans (List.prefix_append _ _)),
      h inputs i List.prefix_rfl⟩
  · intro h before j hpre
    rcases List.prefix_concat_iff.mp hpre with heq | hpre
    · obtain ⟨rfl, hlast⟩ := List.append_inj' heq rfl
      obtain rfl := List.singleton_inj.mp hlast
      exact h.2
    · exact h.1 before j hpre

theorem throughout_trace {P : σ → ι → Prop} {inputs : List ι} :
    Throughout step s (fun s _ i ↦ P s i) inputs ↔ ∀ x ∈ trace step s inputs, P x.1 x.2 := by
  induction inputs using List.reverseRecOn with
  | nil => exact iff_of_true throughout_nil (List.forall_mem_nil _)
  | append_singleton inputs i ih =>
    rw [throughout_concat, trace_concat, List.forall_mem_append, List.forall_mem_singleton, ih]

theorem Throughout.before {P : σ → List (ι × ο) → ι → Prop} {before inputs : List ι}
    (h : Throughout step s P inputs) (hpre : before <+: inputs) : Throughout step s P before :=
  fun first i hfirst ↦ h first i (hfirst.trans hpre)

/-- What every admissible step preserves, of the state and of the calls answered so far, holds after
every run of admissible steps. -/
theorem invariant_throughout {I : σ → List (ι × ο) → Prop} {P : σ → List (ι × ο) → ι → Prop}
    (hstep : ∀ s h i, I s h → P s h i → I (step s i).1 (h ++ [(i, (step s i).2)])) (hs : I s [])
    (inputs : List ι) (hP : Throughout step s P inputs) :
    I (run step s inputs) (answers step s inputs) := by
  induction inputs using List.reverseRecOn with
  | nil => exact hs
  | append_singleton inputs i ih =>
    obtain ⟨hP, hlast⟩ := throughout_concat.mp hP
    rw [run_concat, answers_concat]
    exact hstep _ _ i (ih hP) hlast

/-- When a step keeps `I` and satisfies `Q` exactly where it satisfies `P`, a run does so throughout
exactly when all of its steps satisfy `P`, in runs whose steps are all among `A`; `B` may rely on
the admissible steps. -/
theorem throughout_run_iff {B I : σ → List (ι × ο) → Prop} {A P Q : σ → List (ι × ο) → ι → Prop}
    (hbase : ∀ s h i, A s h i → B s h → P s h i → B (step s i).1 (h ++ [(i, (step s i).2)]))
    (hstep : ∀ s h i, A s h i → B s h → I s h →
      (I (step s i).1 (h ++ [(i, (step s i).2)]) ∧ Q s h i ↔ P s h i))
    (hB : B s []) (hI : I s []) (inputs : List ι) (hA : Throughout step s A inputs) :
    (∀ before, before <+: inputs → I (run step s before) (answers step s before)) ∧
        Throughout step s Q inputs ↔
      Throughout step s P inputs := by
  have hkept (inputs : List ι) (hA : Throughout step s A inputs)
      (hP : Throughout step s P inputs) :
      B (run step s inputs) (answers step s inputs) ∧
        I (run step s inputs) (answers step s inputs) := by
    refine invariant_throughout (I := fun s h ↦ B s h ∧ I s h)
      (P := fun s h i ↦ A s h i ∧ P s h i) ?_ ⟨hB, hI⟩ inputs
      (fun before i hpre ↦ ⟨hA before i hpre, hP before i hpre⟩)
    intro s h i hs hi
    exact ⟨hbase s h i hi.1 hs.1 hi.2, ((hstep s h i hi.1 hs.1 hs.2).mpr hi.2).1⟩
  constructor
  · intro h
    obtain ⟨hall, hsteps⟩ := h
    induction inputs using List.reverseRecOn with
    | nil => exact throughout_nil
    | append_singleton inputs i ih =>
      obtain ⟨hA, hadm⟩ := throughout_concat.mp hA
      obtain ⟨hq, hnow⟩ := throughout_concat.mp hsteps
      have hP := ih hA (fun before hpre ↦ hall before (hpre.trans (List.prefix_append _ _))) hq
      obtain ⟨hb, hi⟩ := hkept inputs hA hP
      have hnext := hall (inputs ++ [i]) List.prefix_rfl
      rw [run_concat, answers_concat] at hnext
      exact throughout_concat.mpr ⟨hP, (hstep _ _ i hadm hb hi).mp ⟨hnext, hnow⟩⟩
  · intro h
    refine ⟨fun before hpre ↦ (hkept before (hA.before hpre) (h.before hpre)).2, ?_⟩
    intro before i hpre
    have hbefore : before <+: inputs := (List.prefix_append _ _).trans hpre
    obtain ⟨hb, hi⟩ := hkept before (hA.before hbefore) (h.before hbefore)
    exact ((hstep _ _ i (hA before i hpre) hb hi).mpr (h before i hpre)).2

theorem throughout_answers {C : List (ι × ο) → Prop} (hC : ∀ h x, C (h ++ [x]) → C h)
    {inputs : List ι} (hinputs : C (answers step s inputs)) :
    Throughout step s (fun s h i ↦ C (h ++ [(i, (step s i).2)])) inputs := by
  induction inputs using List.reverseRecOn with
  | nil => exact throughout_nil
  | append_singleton inputs i ih =>
    rw [answers_concat] at hinputs
    exact throughout_concat.mpr ⟨ih (hC _ _ hinputs), hinputs⟩

theorem steps_run_iff {B I : σ → List (ι × ο) → Prop} {P Q : σ → ι → Prop}
    (hbase : ∀ s h i, B s h → P s i → B (step s i).1 (h ++ [(i, (step s i).2)]))
    (hstep : ∀ s h i, B s h → I s h →
      (I (step s i).1 (h ++ [(i, (step s i).2)]) ∧ Q s i ↔ P s i))
    (hB : B s []) (hI : I s []) (inputs : List ι) :
    (∀ before, before <+: inputs → I (run step s before) (answers step s before)) ∧
        (∀ x ∈ trace step s inputs, Q x.1 x.2) ↔
      ∀ x ∈ trace step s inputs, P x.1 x.2 := by
  rw [← throughout_trace, ← throughout_trace]
  exact throughout_run_iff (A := fun _ _ _ ↦ True) (fun s h i _ ↦ hbase s h i)
    (fun s h i _ ↦ hstep s h i) hB hI inputs (fun _ _ _ ↦ trivial)

theorem answers_run_iff_under {C : List (ι × ο) → Prop} {B I : σ → List (ι × ο) → Prop}
    {P : σ → ι → Prop} (hC : ∀ h x, C (h ++ [x]) → C h)
    (hbase : ∀ s h i, C (h ++ [(i, (step s i).2)]) → B s h → P s i →
      B (step s i).1 (h ++ [(i, (step s i).2)]))
    (hstep : ∀ s h i, C (h ++ [(i, (step s i).2)]) → B s h → I s h →
      (I (step s i).1 (h ++ [(i, (step s i).2)]) ↔ P s i))
    (hB : B s []) (hI : I s []) (inputs : List ι) (hinputs : C (answers step s inputs)) :
    (∀ before, before <+: inputs → I (run step s before) (answers step s before)) ↔
      ∀ x ∈ trace step s inputs, P x.1 x.2 := by
  have hrun := throughout_run_iff (P := fun s _ i ↦ P s i) (Q := fun _ _ _ ↦ True) hbase
    (fun s h i hc hb hi ↦ (and_iff_left trivial).trans (hstep s h i hc hb hi)) hB hI inputs
    (throughout_answers hC hinputs)
  rw [← throughout_trace, ← hrun]
  exact (and_iff_left (fun _ _ _ ↦ trivial)).symm

theorem answers_run_iff {B I : σ → List (ι × ο) → Prop} {P : σ → ι → Prop}
    (hbase : ∀ s h i, B s h → P s i → B (step s i).1 (h ++ [(i, (step s i).2)]))
    (hstep : ∀ s h i, B s h → I s h → (I (step s i).1 (h ++ [(i, (step s i).2)]) ↔ P s i))
    (hB : B s []) (hI : I s []) (inputs : List ι) :
    (∀ before, before <+: inputs → I (run step s before) (answers step s before)) ↔
      ∀ x ∈ trace step s inputs, P x.1 x.2 :=
  answers_run_iff_under (C := fun _ ↦ True) (fun _ _ _ ↦ trivial) (fun s h i _ ↦ hbase s h i)
    (fun s h i _ ↦ hstep s h i) hB hI inputs trivial

section Versions

variable {α V : Type} [PartialOrder V] {version : σ → V} {view : σ → α}

theorem run_versioned (inputs : List ι)
    (hmono : ∀ x ∈ trace step s inputs, version x.1 ≤ version (step x.1 x.2).1)
    (hview : ∀ x ∈ trace step s inputs,
      version (step x.1 x.2).1 = version x.1 → view (step x.1 x.2).1 = view x.1) :
    version s ≤ version (run step s inputs) ∧
      (version (run step s inputs) = version s → view (run step s inputs) = view s) := by
  induction inputs generalizing s with
  | nil => exact ⟨le_rfl, fun _ ↦ rfl⟩
  | cons i inputs ih =>
    obtain ⟨hfirst, hmono⟩ := List.forall_mem_cons.mp hmono
    obtain ⟨hsame, hview⟩ := List.forall_mem_cons.mp hview
    obtain ⟨hle, hrest⟩ := ih hmono hview
    refine ⟨hfirst.trans hle, fun heq ↦ ?_⟩
    rw [run_cons] at heq ⊢
    -- the version cannot have moved in between
    have hnow : version (step s i).1 = version s := le_antisymm (heq ▸ hle) hfirst
    rw [hrest (heq.trans hnow.symm), hsame hnow]

/-- Along a run whose version only grows, it tells the views apart exactly when every step that
keeps the version keeps the view. -/
theorem versioned_run_iff (version : σ → V) (view : σ → α) (inputs : List ι)
    (hmono : ∀ x ∈ trace step s inputs, version x.1 ≤ version (step x.1 x.2).1) :
    (∀ p q, p <+: inputs → q <+: inputs →
        version (run step s p) = version (run step s q) →
        view (run step s p) = view (run step s q)) ↔
      ∀ x ∈ trace step s inputs,
        version (step x.1 x.2).1 = version x.1 → view (step x.1 x.2).1 = view x.1 := by
  constructor
  · intro h x hx heq
    obtain ⟨before, after, rfl, he⟩ := mem_trace hx
    have hpair := h (before ++ [x.2]) before ⟨after, by simp⟩ (List.prefix_append _ _)
    rw [run_concat, ← he] at hpair
    exact hpair heq
  · intro hview
    have hordered (p q : List ι) (hpq : p <+: q) (hq : q <+: inputs)
        (heq : version (run step s p) = version (run step s q)) :
        view (run step s p) = view (run step s q) := by
      obtain ⟨mid, rfl⟩ := hpq
      obtain ⟨after, rfl⟩ := hq
      rw [List.append_assoc, trace_append, trace_append] at hmono hview
      have hmid {P : σ × ι → Prop}
          (h : ∀ x ∈ trace step s p ++ (trace step (run step s p) mid ++
            trace step (run step (run step s p) mid) after), P x) :
          ∀ x ∈ trace step (run step s p) mid, P x :=
        fun x hx ↦ h x (List.mem_append_right _ (List.mem_append_left _ hx))
      have hkept := (run_versioned mid (hmid hmono) (hmid hview)).2
      rw [run_append] at heq ⊢
      exact (hkept heq.symm).symm
    intro p q hp hq heq
    rcases List.prefix_or_prefix_of_prefix hp hq with hpq | hqp
    · exact hordered p q hpq hq heq
    · exact (hordered q p hqp hp heq.symm).symm

end Versions

section History

variable {α : Type} (p : α → Bool)

/-- The events of a history after the last one that satisfies `p`. -/
def since (history : List α) : List α := history.rtakeWhile (fun x ↦ !p x)

theorem since_concat_miss (history : List α) {x : α} (hx : p x = false) :
    since p (history ++ [x]) = since p history ++ [x] :=
  List.rtakeWhile_concat_pos _ _ _ (by simp [hx])

theorem since_concat_hit (history : List α) {x : α} (hx : p x = true) :
    since p (history ++ [x]) = [] :=
  List.rtakeWhile_concat_neg _ _ _ (by simp [hx])

/-- The milestones were reached, in this order, since the last reset. -/
def Reached (milestones : List (α → Prop)) (history : List α) : Prop :=
  ∃ events, List.Forall₂ (fun P x ↦ P x) milestones events ∧ events.Sublist (since p history)

variable {p}

theorem Reached.skip {milestones : List (α → Prop)} {history : List α} {x : α}
    (h : Reached p milestones history) (hx : p x = false) :
    Reached p milestones (history ++ [x]) := by
  obtain ⟨events, hall, hsub⟩ := h
  refine ⟨events, hall, ?_⟩
  rw [since_concat_miss p history hx]
  exact hsub.trans (List.sublist_append_left _ _)

theorem Reached.next {milestones : List (α → Prop)} {history : List α} {P : α → Prop} {x : α}
    (h : Reached p milestones history) (hx : p x = false) (hP : P x) :
    Reached p (milestones ++ [P]) (history ++ [x]) := by
  obtain ⟨events, hall, hsub⟩ := h
  refine ⟨events ++ [x], List.rel_append hall (.cons hP .nil), ?_⟩
  rw [since_concat_miss p history hx]
  exact hsub.append (List.Sublist.refl _)

theorem reached_nil (history : List α) : Reached p [] history :=
  ⟨[], .nil, List.nil_sublist _⟩

variable {β : Type} (f : α → Option β)

/-- What the last event says that says anything. -/
def latest (history : List α) : Option β := history.reverse.findSome? f

theorem latest_concat (history : List α) (x : α) :
    latest f (history ++ [x]) = (f x).or (latest f history) := by
  rw [latest, List.reverse_append, List.reverse_singleton, List.singleton_append,
    List.findSome?_cons]
  cases f x with
  | none => rfl
  | some b => rfl

end History

end Aldivine.Foundation.Execution
