import Aldivine.Foundation.Execution
import Aldivine.Foundation.Text
import Mathlib.Algebra.Order.Ring.Nat

namespace Aldivine.Deferrals.Session

open Foundation.Execution Foundation.Text

def timeoutCode : String := "ALD-QUEUE-TIMEOUT"

def defaultWaitMessage : String := "Connecting…"

def maxMessageLen : ℕ := 256

structure DeferralContext where
  playerId : String
  remoteIp : String
  queuePosition : Option ℕ
deriving DecidableEq

inductive GateDecision
  | pass
  | wait (message : String)
  | deny (code reason : String)
deriving DecidableEq

/-- A gate is a closure over mutable state `σ`, which all gates of a session may share. -/
structure DeferralGate (σ : Type) where
  name : String
  check : σ → DeferralContext → GateDecision × σ

inductive SessionOutcome
  | admitted
  | denied (code reason gate : String)
  | waiting (message gate : String)
deriving DecidableEq

structure DeferralSession (σ : Type) where
  gates : List (DeferralGate σ)
  current : ℕ
  polls : ℕ
  maxPolls : ℕ

variable {σ : Type}

def DeferralSession.new (gates : List (DeferralGate σ)) (maxPolls : ℕ) : DeferralSession σ :=
  ⟨gates, 0, 0, max maxPolls 1⟩

def boundMessage (raw : String) : String :=
  let trimmed := trim raw
  let base := if trimmed.isEmpty then defaultWaitMessage else trimmed
  if base.utf8ByteSize ≤ maxMessageLen then base
  else String.ofList (truncateChars maxMessageLen base.toList)

/-- Run the remaining gates until one waits, one denies, or all have passed. -/
def drive (ctx : DeferralContext) :
    List (DeferralGate σ) → ℕ → σ → SessionOutcome × ℕ × σ
  | [], current, env => (.admitted, current, env)
  | gate :: gates, current, env =>
    match gate.check env ctx with
    | (.pass, env) => drive ctx gates (current + 1) env
    | (.wait message, env) => (.waiting (boundMessage message) gate.name, current, env)
    | (.deny code reason, env) => (.denied code (boundMessage reason) gate.name, current, env)

def DeferralSession.poll (s : DeferralSession σ) (env : σ) (ctx : DeferralContext) :
    SessionOutcome × DeferralSession σ × σ :=
  let s := { s with polls := s.polls + 1 }
  if s.polls > s.maxPolls then
    (.denied timeoutCode "Connection timed out during pre-join checks."
      ((s.gates[s.current]?.map (·.name)).getD ""), s, env)
  else
    let (outcome, current, env) := drive ctx (s.gates.drop s.current) s.current env
    (outcome, { s with current := current }, env)

/-- A poll with a counter of 64 bits, which wraps to zero. -/
def DeferralSession.pollU64 (s : DeferralSession σ) (env : σ) (ctx : DeferralContext) :
    SessionOutcome × DeferralSession σ × σ :=
  if s.polls + 1 < 2 ^ 64 then s.poll env ctx
  else
    let (outcome, current, env) := drive ctx (s.gates.drop s.current) s.current env
    (outcome, { s with polls := 0, current := current }, env)

def step (x : DeferralSession σ × σ) (ctx : DeferralContext) :
    (DeferralSession σ × σ) × SessionOutcome :=
  ((x.1.pollU64 x.2 ctx).2, (x.1.pollU64 x.2 ctx).1)

section Watching

abbrev Log : Type := List (ℕ × GateDecision)

def DeferralGate.watched (i : ℕ) (gate : DeferralGate σ) : DeferralGate (σ × Log) where
  name := gate.name
  check x ctx :=
    ((gate.check x.1 ctx).1, (gate.check x.1 ctx).2, x.2 ++ [(i, (gate.check x.1 ctx).1)])

def watched : ℕ → List (DeferralGate σ) → List (DeferralGate (σ × Log))
  | _, [] => []
  | i, gate :: gates => gate.watched i :: watched (i + 1) gates

def start (gates : List (DeferralGate σ)) (maxPolls : UInt64) (env : σ) :
    DeferralSession (σ × Log) × σ × Log :=
  (.new (watched 0 gates) maxPolls.toNat, env, [])

def passed (log : Log) : List ℕ :=
  log.filterMap (fun x ↦ if x.2 = .pass then some x.1 else none)

end Watching

/-- Each gate is run when exactly the gates before it have passed, in order. -/
def Disciplined (log : Log) : Prop :=
  ∀ before i decision after, log = before ++ (i, decision) :: after → passed before = List.range i

def SessionOutcome.Denies (outcome : SessionOutcome) : Prop :=
  ∃ code reason gate, outcome = .denied code reason gate

def AllPass (ctx : DeferralContext) : List (DeferralGate σ) → σ → Prop
  | [], _ => True
  | gate :: gates, env => (gate.check env ctx).1 = .pass ∧ AllPass ctx gates (gate.check env ctx).2

/-- The gates run in order and pass once, all of them before an admission, and a denial is final. -/
structure Sound (gates : ℕ) (x : DeferralSession (σ × Log) × σ × Log)
    (history : List (DeferralContext × SessionOutcome)) : Prop where
  disciplined : Disciplined x.2.2
  admitted : ∀ y ∈ history, y.2 = .admitted → passed x.2.2 = List.range gates
  final : history.Pairwise (fun y z ↦ y.2.Denies → z.2 ≠ .admitted)

/-- Past the budget a poll is denied for its time, and no gate is run. -/
def Timely (maxPolls : UInt64) (x : DeferralSession (σ × Log) × σ × Log)
    (history : List (DeferralContext × SessionOutcome)) (ctx : DeferralContext) : Prop :=
  max maxPolls.toNat 1 ≤ history.length → (step x ctx).1.2 = x.2 ∧
    ∃ gate, (step x ctx).2 =
      .denied timeoutCode "Connection timed out during pre-join checks." gate

/-- The counter does not wrap, and after a denial some gate that is still to pass does not. -/
structure Steadfast (x : DeferralSession (σ × Log) × σ × Log)
    (history : List (DeferralContext × SessionOutcome)) (ctx : DeferralContext) : Prop where
  counted : x.1.polls + 1 < 2 ^ 64
  denied : (∃ y ∈ history, y.2.Denies) → x.1.polls < x.1.maxPolls →
    ¬AllPass ctx (x.1.gates.drop x.1.current) x.2

variable {log : Log} {i n : ℕ} {decision : GateDecision} {env : σ} {ctx : DeferralContext}
  {gates : List (DeferralGate σ)} {gate : DeferralGate σ}

section Logs

theorem passed_append (before after : Log) :
    passed (before ++ after) = passed before ++ passed after := List.filterMap_append

theorem passed_pass (h : passed log = List.range i) :
    passed (log ++ [(i, .pass)]) = List.range (i + 1) := by
  rw [passed_append, h, List.range_succ]
  rfl

theorem passed_stop (h : decision ≠ .pass) : passed (log ++ [(i, decision)]) = passed log := by
  rw [passed_append]
  simp [passed, h]

theorem Disciplined.check (h : Disciplined log) (hpassed : passed log = List.range i)
    (decision : GateDecision) : Disciplined (log ++ [(i, decision)]) := by
  intro before j d after heq
  obtain rfl | ⟨init, last, rfl⟩ := List.eq_nil_or_concat after
  · obtain ⟨rfl, hlast⟩ := List.append_inj' heq rfl
    cases hlast
    exact hpassed
  · rw [List.concat_eq_append, ← List.cons_append, ← List.append_assoc] at heq
    exact h before j d init (List.append_inj' heq rfl).1

end Logs

section Driving

theorem drive_pass (h : (gate.check env ctx).1 = .pass) :
    drive ctx (gate :: gates) i env = drive ctx gates (i + 1) (gate.check env ctx).2 := by
  rw [drive]
  split
  · rename_i heq
    rw [heq]
  · rename_i heq
    rw [heq] at h
    cases h
  · rename_i heq
    rw [heq] at h
    cases h

theorem drive_stop (gates : List (DeferralGate σ)) (i : ℕ) (h : (gate.check env ctx).1 ≠ .pass) :
    ∃ outcome, outcome ≠ .admitted ∧
      drive ctx (gate :: gates) i env = (outcome, i, (gate.check env ctx).2) := by
  rw [drive]
  split
  · rename_i heq
    rw [heq] at h
    exact absurd rfl h
  · rename_i message env heq
    rw [heq]
    exact ⟨.waiting (boundMessage message) gate.name, nofun, rfl⟩
  · rename_i code reason env heq
    rw [heq]
    exact ⟨.denied code (boundMessage reason) gate.name, nofun, rfl⟩

theorem drive_admitted_iff (gates : List (DeferralGate σ)) (i : ℕ) (env : σ) :
    (drive ctx gates i env).1 = .admitted ↔ AllPass ctx gates env := by
  induction gates generalizing i env with
  | nil => exact iff_of_true rfl trivial
  | cons gate gates ih =>
    by_cases hpass : (gate.check env ctx).1 = .pass
    · rw [drive_pass hpass, ih, AllPass, and_iff_right hpass]
    · obtain ⟨outcome, hne, hdrive⟩ := drive_stop gates i hpass
      rw [hdrive]
      exact iff_of_false hne (fun hall ↦ hpass hall.1)

structure Driven (gates : List (DeferralGate σ)) (i : ℕ) (log : Log)
    (r : SessionOutcome × ℕ × σ × Log) : Prop where
  disciplined : Disciplined r.2.2.2
  passed_eq : passed r.2.2.2 = List.range r.2.1
  admitted : r.1 = .admitted → r.2.1 = i + gates.length
  le : i ≤ r.2.1
  bounded : r.2.1 ≤ i + gates.length
  grows : log <+: r.2.2.2 ∧ (gates ≠ [] → log ≠ r.2.2.2)

theorem drive_watched (hlog : Disciplined log) (hpassed : passed log = List.range i)
    (gates : List (DeferralGate σ)) (env : σ) :
    Driven gates i log (drive ctx (watched i gates) i (env, log)) := by
  induction gates generalizing i env log with
  | nil => exact ⟨hlog, hpassed, fun _ ↦ rfl, le_rfl, le_rfl, List.prefix_rfl, nofun⟩
  | cons gate gates ih =>
    have hnext := hlog.check hpassed (gate.check env ctx).1
    have hlonger : log ≠ log ++ [(i, (gate.check env ctx).1)] := by simp
    by_cases hpass : ((gate.watched i).check (env, log) ctx).1 = .pass
    · have hcount : passed (log ++ [(i, (gate.check env ctx).1)]) = List.range (i + 1) := by
        rw [show (gate.check env ctx).1 = .pass from hpass]
        exact passed_pass hpassed
      have hrest : Driven gates (i + 1) _ (drive ctx (watched (i + 1) gates) (i + 1)
          ((gate.watched i).check (env, log) ctx).2) := ih hnext hcount (gate.check env ctx).2
      rw [watched, drive_pass hpass]
      refine ⟨hrest.disciplined, hrest.passed_eq, fun hadmitted ↦ ?_, ?_, ?_, ?_, fun _ ↦ ?_⟩
      · rw [hrest.admitted hadmitted, List.length_cons]
        omega
      · exact (Nat.le_succ i).trans hrest.le
      · rw [List.length_cons]
        exact hrest.bounded.trans (by omega)
      · exact (List.prefix_append _ _).trans hrest.grows.1
      · intro heq
        have hlength := hrest.grows.1.length_le
        rw [← heq, List.length_append, List.length_singleton] at hlength
        omega
    · obtain ⟨outcome, hne, hdrive⟩ := drive_stop (watched (i + 1) gates) i hpass
      rw [watched, hdrive]
      refine ⟨hnext, ?_, fun hadmitted ↦ absurd hadmitted hne, le_rfl, ?_, List.prefix_append _ _,
        fun _ ↦ ?_⟩
      · exact (passed_stop hpass).trans hpassed
      · exact Nat.le_add_right i _
      · exact hlonger

theorem watched_drop (n i : ℕ) (gates : List (DeferralGate σ)) :
    (watched i gates).drop n = watched (i + n) (gates.drop n) := by
  induction n generalizing i gates with
  | zero => rfl
  | succ n ih =>
    cases gates with
    | nil => rfl
    | cons gate gates =>
      rw [watched, List.drop_succ_cons, List.drop_succ_cons, ih, Nat.add_assoc, Nat.add_comm 1 n]

end Driving

section Polling

variable {x : DeferralSession σ × σ}

theorem step_timeout (hcounted : x.1.polls + 1 < 2 ^ 64) (h : x.1.maxPolls < x.1.polls + 1) :
    step x ctx = (({ x.1 with polls := x.1.polls + 1 }, x.2),
      .denied timeoutCode "Connection timed out during pre-join checks."
        ((x.1.gates[x.1.current]?.map (·.name)).getD "")) := by
  have hpoll : x.1.pollU64 x.2 ctx = x.1.poll x.2 ctx := if_pos hcounted
  rw [step, hpoll, DeferralSession.poll, if_pos h]

theorem step_drive (hcounted : x.1.polls + 1 < 2 ^ 64) (h : x.1.polls + 1 ≤ x.1.maxPolls) :
    step x ctx = (({ x.1 with
        polls := x.1.polls + 1
        current := (drive ctx (x.1.gates.drop x.1.current) x.1.current x.2).2.1 },
      (drive ctx (x.1.gates.drop x.1.current) x.1.current x.2).2.2),
      (drive ctx (x.1.gates.drop x.1.current) x.1.current x.2).1) := by
  have hpoll : x.1.pollU64 x.2 ctx = x.1.poll x.2 ctx := if_pos hcounted
  rw [step, hpoll, DeferralSession.poll, if_neg (Nat.not_lt.mpr h)]

theorem step_wrap (ctx : DeferralContext) (h : ¬x.1.polls + 1 < 2 ^ 64) :
    (step x ctx).1.2 = (drive ctx (x.1.gates.drop x.1.current) x.1.current x.2).2.2 ∧
      (step x ctx).2 = (drive ctx (x.1.gates.drop x.1.current) x.1.current x.2).1 := by
  rw [step, DeferralSession.pollU64, if_neg h]
  exact ⟨rfl, rfl⟩

end Polling

section Transparency

structure Shadows (x : DeferralSession σ × σ) (y : DeferralSession (σ × Log) × σ × Log) : Prop where
  gates : y.1.gates = watched 0 x.1.gates
  current : y.1.current = x.1.current
  polls : y.1.polls = x.1.polls
  maxPolls : y.1.maxPolls = x.1.maxPolls
  env : y.2.1 = x.2

theorem watched_names (i : ℕ) (gates : List (DeferralGate σ)) :
    (watched i gates).map (·.name) = gates.map (·.name) := by
  induction gates generalizing i with
  | nil => rfl
  | cons gate gates ih =>
    rw [watched, List.map_cons, List.map_cons, ih]
    rfl

theorem drive_shadows (ctx : DeferralContext) (gates : List (DeferralGate σ)) (i : ℕ) (env : σ)
    (log : Log) (current : ℕ) :
    (drive ctx (watched i gates) current (env, log)).1 = (drive ctx gates current env).1 ∧
      (drive ctx (watched i gates) current (env, log)).2.1 = (drive ctx gates current env).2.1 ∧
      (drive ctx (watched i gates) current (env, log)).2.2.1 =
        (drive ctx gates current env).2.2 := by
  induction gates generalizing i env log current with
  | nil => exact ⟨rfl, rfl, rfl⟩
  | cons gate gates ih =>
    rw [watched, drive, drive]
    cases hcheck : gate.check env ctx with
    | mk decision env' =>
      have hwatched : (gate.watched i).check (env, log) ctx =
          (decision, env', log ++ [(i, decision)]) := by
        simp only [DeferralGate.watched, hcheck]
      rw [hwatched]
      cases decision with
      | pass => exact ih (i + 1) env' _ (current + 1)
      | wait message => exact ⟨rfl, rfl, rfl⟩
      | deny code reason => exact ⟨rfl, rfl, rfl⟩

theorem step_shadows {x : DeferralSession σ × σ} {y : DeferralSession (σ × Log) × σ × Log}
    (h : Shadows x y) (ctx : DeferralContext) :
    (step y ctx).2 = (step x ctx).2 ∧ Shadows (step x ctx).1 (step y ctx).1 := by
  obtain ⟨⟨xgates, _, _, _⟩, _⟩ := x
  obtain ⟨⟨ygates, current, polls, maxPolls⟩, env, log⟩ := y
  obtain ⟨hgates, hcurrent, hpolls, hmax, henv⟩ := h
  dsimp only at hgates hcurrent hpolls hmax henv
  subst hgates hcurrent hpolls hmax henv
  obtain ⟨houtcome, hnext, hstate⟩ :=
    drive_shadows ctx (xgates.drop current) current env log current
  have hdrop : (watched 0 xgates).drop current = watched current (xgates.drop current) := by
    rw [watched_drop, Nat.zero_add]
  by_cases hcounted : polls + 1 < 2 ^ 64
  · by_cases hbudget : polls + 1 ≤ maxPolls
    · rw [step_drive hcounted hbudget, step_drive hcounted hbudget]
      dsimp only
      rw [hdrop]
      exact ⟨houtcome, rfl, hnext, rfl, rfl, hstate⟩
    · rw [step_timeout hcounted (Nat.not_le.mp hbudget),
        step_timeout hcounted (Nat.not_le.mp hbudget)]
      dsimp only
      rw [← List.getElem?_map, ← List.getElem?_map, watched_names]
      exact ⟨rfl, rfl, rfl, rfl, rfl, rfl⟩
  · rw [step, step, DeferralSession.pollU64, DeferralSession.pollU64, if_neg hcounted,
      if_neg hcounted]
    dsimp only
    rw [hdrop]
    exact ⟨houtcome, rfl, hnext, rfl, rfl, hstate⟩

/-- Watching its gates changes no outcome of a session. -/
theorem answers_watched (gates : List (DeferralGate σ)) (maxPolls : UInt64) (env : σ)
    (ctxs : List DeferralContext) :
    answers step (start gates maxPolls env) ctxs =
      answers step (DeferralSession.new gates maxPolls.toNat, env) ctxs := by
  have hrun {x : DeferralSession σ × σ} {y : DeferralSession (σ × Log) × σ × Log}
      (h : Shadows x y) : answers step y ctxs = answers step x ctxs := by
    induction ctxs generalizing x y with
    | nil => rfl
    | cons ctx ctxs ih =>
      obtain ⟨hsame, hnext⟩ := step_shadows h ctx
      rw [answers_cons, answers_cons, hsame, ih hnext]
  exact hrun ⟨rfl, rfl, rfl, rfl, rfl⟩

end Transparency

section Runs

structure Counted (gates : List (DeferralGate σ)) (maxPolls : UInt64)
    (x : DeferralSession (σ × Log) × σ × Log)
    (history : List (DeferralContext × SessionOutcome)) : Prop where
  gates_eq : x.1.gates = watched 0 gates
  maxPolls_eq : x.1.maxPolls = max maxPolls.toNat 1
  polls_eq : x.1.polls = history.length
  current_le : x.1.current ≤ gates.length
  disciplined : Disciplined x.2.2
  passed_eq : passed x.2.2 = List.range x.1.current
  admitted : ∀ y ∈ history, y.2 = .admitted → x.1.current = gates.length

variable {maxPolls : UInt64} {x : DeferralSession (σ × Log) × σ × Log}
  {history : List (DeferralContext × SessionOutcome)}

theorem Counted.driven (h : Counted gates maxPolls x history) (ctx : DeferralContext) :
    Driven (gates.drop x.1.current) x.1.current x.2.2
      (drive ctx (x.1.gates.drop x.1.current) x.1.current x.2) := by
  rw [h.gates_eq, watched_drop, Nat.zero_add]
  exact drive_watched h.disciplined h.passed_eq _ _

theorem Counted.next (h : Counted gates maxPolls x history) (ctx : DeferralContext)
    (hcounted : x.1.polls + 1 < 2 ^ 64) :
    Counted gates maxPolls (step x ctx).1 (history ++ [(ctx, (step x ctx).2)]) := by
  by_cases hbudget : x.1.polls + 1 ≤ x.1.maxPolls
  · have hdriven := h.driven ctx
    have hbounded := hdriven.bounded
    have hle := h.current_le
    rw [List.length_drop] at hbounded
    rw [step_drive hcounted hbudget]
    refine ⟨h.gates_eq, h.maxPolls_eq, ?_, ?_, hdriven.disciplined, hdriven.passed_eq, ?_⟩
    · rw [h.polls_eq, List.length_append, List.length_singleton]
    · exact hbounded.trans (by omega)
    · intro y hy hadmitted
      have hfirst := hdriven.le
      rcases List.mem_append.mp hy with hy | hy
      · have hall := h.admitted y hy hadmitted
        exact le_antisymm (hbounded.trans (by omega)) (hall ▸ hfirst)
      · rw [List.mem_singleton.mp hy] at hadmitted
        have hall := hdriven.admitted hadmitted
        rw [List.length_drop] at hall
        exact hall.trans (by omega)
  · rw [step_timeout hcounted (Nat.not_le.mp hbudget)]
    refine ⟨h.gates_eq, h.maxPolls_eq, ?_, h.current_le, h.disciplined, h.passed_eq, ?_⟩
    · rw [h.polls_eq, List.length_append, List.length_singleton]
    · intro y hy hadmitted
      rcases List.mem_append.mp hy with hy | hy
      · exact h.admitted y hy hadmitted
      · rw [List.mem_singleton.mp hy] at hadmitted
        cases hadmitted

theorem Counted.sound (h : Counted gates maxPolls x history)
    (hfinal : history.Pairwise (fun y z ↦ y.2.Denies → z.2 ≠ .admitted)) :
    Sound gates.length x history :=
  ⟨h.disciplined, fun y hy hadmitted ↦ h.admitted y hy hadmitted ▸ h.passed_eq, hfinal⟩

/-- A counter that wraps runs the gates again, or admits. -/
theorem Counted.not_wrapped (h : Counted gates maxPolls x history)
    (htimely : Timely maxPolls x history ctx) : x.1.polls + 1 < 2 ^ 64 := by
  by_contra hwrap
  have hpolls := h.polls_eq
  have hsmall := maxPolls.toNat_lt
  obtain ⟨henv, gate, houtcome⟩ := htimely (by omega)
  obtain ⟨hstate, hanswer⟩ := step_wrap ctx hwrap
  have hnil : gates.drop x.1.current = [] := by
    by_contra hne
    exact (h.driven ctx).grows.2 hne (by rw [← hstate, henv])
  rw [h.gates_eq, watched_drop, hnil, houtcome] at hanswer
  cases hanswer

theorem Counted.steadfast_iff (h : Counted gates maxPolls x history)
    (hsound : Sound gates.length x history) :
    Sound gates.length (step x ctx).1 (history ++ [(ctx, (step x ctx).2)]) ∧
        Timely maxPolls x history ctx ↔ Steadfast x history ctx := by
  have hmax := h.maxPolls_eq
  have hpolls := h.polls_eq
  constructor
  · intro hnext
    have hcounted := h.not_wrapped hnext.2
    refine ⟨hcounted, fun hdenied hbudget hall ↦ ?_⟩
    obtain ⟨y, hy, hdenies⟩ := hdenied
    have hadmitted : (step x ctx).2 = .admitted := by
      rw [step_drive hcounted hbudget]
      exact (drive_admitted_iff _ _ _).mpr hall
    have hpairs := (List.pairwise_append.mp hnext.1.final).2.2
    exact hpairs y hy _ (List.mem_singleton_self _) hdenies hadmitted
  · intro hsteadfast
    have hcounted := hsteadfast.counted
    refine ⟨(h.next ctx hcounted).sound ?_, fun hlate ↦ ?_⟩
    · refine List.pairwise_append.mpr ⟨hsound.final, List.pairwise_singleton _ _, ?_⟩
      intro y hy z hz hdenies hadmitted
      rw [List.mem_singleton.mp hz] at hadmitted
      by_cases hbudget : x.1.polls + 1 ≤ x.1.maxPolls
      · rw [step_drive hcounted hbudget] at hadmitted
        exact hsteadfast.denied ⟨y, hy, hdenies⟩ hbudget ((drive_admitted_iff _ _ _).mp hadmitted)
      · rw [step_timeout hcounted (Nat.not_le.mp hbudget)] at hadmitted
        cases hadmitted
    · rw [step_timeout hcounted (by omega)]
      exact ⟨rfl, _, rfl⟩

/-- A session keeps its order and its budget, and stays denied, throughout exactly when its counter
does not wrap and after a denial the gates that are still to pass never all do. -/
theorem sound_iff (gates : List (DeferralGate σ)) (maxPolls : UInt64) (env : σ)
    (ctxs : List DeferralContext) :
    (∀ before, before <+: ctxs → Sound gates.length (run step (start gates maxPolls env) before)
          (answers step (start gates maxPolls env) before)) ∧
        Throughout step (start gates maxPolls env) (Timely maxPolls) ctxs ↔
      Throughout step (start gates maxPolls env) Steadfast ctxs := by
  have hnone : Disciplined ([] : Log) := fun before _ _ _ heq ↦ by cases before <;> cases heq
  refine throughout_run_iff (B := Counted gates maxPolls) (A := fun _ _ _ ↦ True)
    (fun x history ctx _ h hsteadfast ↦ h.next ctx hsteadfast.counted)
    (fun x history ctx _ h hsound ↦ h.steadfast_iff hsound) ?_ ?_ ctxs (fun _ _ _ ↦ trivial)
  · exact ⟨rfl, rfl, rfl, Nat.zero_le _, hnone, rfl, nofun⟩
  · exact ⟨hnone, nofun, .nil⟩

end Runs

section Fickle

def fickle : DeferralGate Bool where
  name := "ban-check"
  check asked _ := (if asked then .pass else .deny "ALD-BAN-001" "Banned.", true)

def joiner : DeferralContext := ⟨"p1", "198.51.100.7", none⟩

/-- A denied player is admitted by the next poll. -/
theorem denied_then_admitted : ¬∀ before, before <+: [joiner, joiner] →
    Sound 1 (run step (start [fickle] 10 false) before)
      (answers step (start [fickle] 10 false) before) := by
  intro h
  have hfinal := (h _ List.prefix_rfl).final
  have hanswers : answers step (start [fickle] 10 false) [joiner, joiner] =
      [(joiner, .denied "ALD-BAN-001" "Banned." "ban-check"), (joiner, .admitted)] := by
    decide +kernel
  rw [hanswers, List.pairwise_pair] at hfinal
  exact hfinal ⟨_, _, _, rfl⟩ rfl

end Fickle

end Aldivine.Deferrals.Session
