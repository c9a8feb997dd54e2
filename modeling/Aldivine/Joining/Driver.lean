import Aldivine.Foundation.Execution

namespace Aldivine.Joining.Driver

open Foundation.Execution

inductive JoinPhase
  | handshake
  | deferrals (message : String)
  | queued (position : ℕ)
  | downloading (received total : UInt64)
  | residency (pending : ℕ)
  | ready
  | failed (reason : String)
deriving DecidableEq

def JoinPhase.terminal : JoinPhase → Bool
  | .ready | .failed _ => true
  | _ => false

inductive ServerEvent
  | deferralUpdate (message : String)
  | deferralDone
  | queuePosition (position : ℕ)
  | queueAdmitted
  | manifest (totalBytes : UInt64)
  | chunkArrived (received : UInt64)
  | downloadComplete
  | residencyPending (pending : ℕ)
  | residencyReady
  | rejected (reason : String)
  | kicked (reason : String)
deriving DecidableEq

/-- The phase of an out-of-order event is kept itself, not as its debug text. -/
inductive JoinError
  | lateEvent
  | outOfOrder (event : ServerEvent) (phase : JoinPhase)
deriving DecidableEq

structure JoinDriver where
  phase : JoinPhase
  lastEventTick : UInt64
  stallBudget : UInt64
deriving DecidableEq

def stallBudgetTicks : UInt64 := 300

namespace JoinDriver

def withStallBudget (nowTick stallBudget : UInt64) : JoinDriver :=
  ⟨.handshake, nowTick, if stallBudget = 0 then 1 else stallBudget⟩

def new (nowTick : UInt64) : JoinDriver := ⟨.handshake, nowTick, stallBudgetTicks⟩

/-- The phase an event leads to, `some none` to stay; `none` if it does not fit. -/
def next : JoinPhase → ServerEvent → Option (Option JoinPhase)
  | _, .rejected reason => some (some (.failed ("rejected: " ++ reason)))
  | _, .kicked reason => some (some (.failed ("kicked: " ++ reason)))
  | .handshake, .deferralUpdate message => some (some (.deferrals message))
  | .handshake, .deferralDone => some (some (.deferrals ""))
  | .deferrals _, .deferralUpdate message => some (some (.deferrals message))
  | .deferrals _, .deferralDone => some none
  | .deferrals _, .queuePosition position => some (some (.queued position))
  | .handshake, .queuePosition position => some (some (.queued position))
  | .queued _, .queuePosition position => some (some (.queued position))
  | .queued _, .queueAdmitted => some (some (.downloading 0 0))
  | .downloading received _, .manifest totalBytes => some (some (.downloading received totalBytes))
  | .downloading _ total, .chunkArrived received =>
    if received > total ∧ total > 0 then none else some (some (.downloading received total))
  | .downloading _ _, .downloadComplete => some (some (.residency 0))
  | .residency _, .residencyPending pending => some (some (.residency pending))
  | .residency _, .residencyReady => some (some .ready)
  | _, _ => none

def apply (d : JoinDriver) (input : ServerEvent × UInt64) : JoinDriver × Except JoinError Unit :=
  if d.phase.terminal then (d, .error .lateEvent)
  else
    match next d.phase input.1 with
    | none => (d, .error (.outOfOrder input.1 d.phase))
    | some phase =>
      ({ d with phase := phase.getD d.phase, lastEventTick := input.2 }, .ok ())

def cancel (d : JoinDriver) : JoinDriver :=
  if d.phase.terminal then d else { d with phase := .failed "cancelled by user" }

end JoinDriver

def OutOfOrder (answer : Except JoinError Unit) : Prop :=
  ∃ event phase, answer = .error (.outOfOrder event phase)

def Orderly (d : JoinDriver) (inputs : List (ServerEvent × UInt64)) : Prop :=
  ∀ x ∈ answers JoinDriver.apply d inputs, ¬OutOfOrder x.2

variable {d : JoinDriver} {input : ServerEvent × UInt64} {inputs : List (ServerEvent × UInt64)}

theorem apply_terminal (h : d.phase.terminal = true) :
    d.apply input = (d, .error .lateEvent) :=
  if_pos h

theorem apply_next {event : ServerEvent} {phase : Option JoinPhase} (tick : UInt64)
    (hopen : d.phase.terminal = false) (h : JoinDriver.next d.phase event = some phase) :
    d.apply (event, tick) =
      ({ d with phase := phase.getD d.phase, lastEventTick := tick }, .ok ()) := by
  rw [JoinDriver.apply, hopen, if_neg Bool.false_ne_true, h]

theorem apply_unfit {event : ServerEvent} (tick : UInt64) (hopen : d.phase.terminal = false)
    (h : JoinDriver.next d.phase event = none) :
    d.apply (event, tick) = (d, .error (.outOfOrder event d.phase)) := by
  rw [JoinDriver.apply, hopen, if_neg Bool.false_ne_true, h]

theorem orderly_append {more : List (ServerEvent × UInt64)} :
    Orderly d (inputs ++ more) ↔
      Orderly d inputs ∧ Orderly (run JoinDriver.apply d inputs) more := by
  rw [Orderly, answers, trace_append, List.map_append, List.forall_mem_append]
  exact Iff.rfl

theorem orderly_nil : Orderly d [] := List.forall_mem_nil _

theorem orderly_cons :
    Orderly d (input :: inputs) ↔
      ¬OutOfOrder (d.apply input).2 ∧ Orderly (d.apply input).1 inputs :=
  List.forall_mem_cons

/-- A finished join refuses every event as late and stays as it is. -/
theorem terminal_run (h : d.phase.terminal = true) (inputs : List (ServerEvent × UInt64)) :
    run JoinDriver.apply d inputs = d ∧ Orderly d inputs := by
  induction inputs with
  | nil => exact ⟨rfl, orderly_nil⟩
  | cons input inputs ih =>
    rw [run_cons, orderly_cons, apply_terminal h]
    refine ⟨ih.1, ?_, ih.2⟩
    rintro ⟨event, phase, heq⟩
    cases heq

theorem apply_rejected (hopen : d.phase.terminal = false) (reason : String) (tick : UInt64) :
    d.apply (.rejected reason, tick) =
      ({ d with phase := .failed ("rejected: " ++ reason), lastEventTick := tick }, .ok ()) := by
  have hnext : JoinDriver.next d.phase (.rejected reason) =
      some (some (.failed ("rejected: " ++ reason))) := by
    cases d.phase <;> rfl
  exact apply_next tick hopen hnext

section Joins

inductive Op
  | apply (event : ServerEvent) (nowTick : UInt64)
  | cancel
deriving DecidableEq

def JoinDriver.act (d : JoinDriver) : Op → JoinDriver × Except JoinError Unit
  | .apply event nowTick => d.apply (event, nowTick)
  | .cancel => (d.cancel, .ok ())

def Accepts (event : ServerEvent) (x : Op × Except JoinError Unit) : Prop :=
  x.2 = .ok () ∧ ∃ nowTick, x.1 = .apply event nowTick

/-- The events that must have been accepted, in this order, before a phase. -/
def milestones : JoinPhase → List (Op × Except JoinError Unit → Prop)
  | .downloading _ _ => [Accepts .queueAdmitted]
  | .residency _ => [Accepts .queueAdmitted, Accepts .downloadComplete]
  | .ready => [Accepts .queueAdmitted, Accepts .downloadComplete, Accepts .residencyReady]
  | _ => []

/-- No more bytes are counted than there are, once the manifest tells how many. -/
def Bounded : JoinPhase → Prop
  | .downloading received total => 0 < total → received ≤ total
  | _ => True

structure Sound (d : JoinDriver) (history : List (Op × Except JoinError Unit)) : Prop where
  bounded : Bounded d.phase
  ready : d.phase = .ready → Reached (fun _ ↦ false)
    [Accepts .queueAdmitted, Accepts .downloadComplete, Accepts .residencyReady] history

structure Firm (d : JoinDriver) (op : Op) : Prop where
  terminal : d.phase.terminal = true → (d.act op).1.phase = d.phase
  refused : (d.act op).2 ≠ .ok () →
    (d.act op).1.phase = d.phase ∧ (d.act op).1.lastEventTick = d.lastEventTick

/-- A manifest does not fall short of the bytes that have been counted before it. -/
def Covers (d : JoinDriver) (op : Op) : Prop :=
  ∀ received total totalBytes nowTick, d.phase = .downloading received total →
    op = .apply (.manifest totalBytes) nowTick → 0 < totalBytes → received ≤ totalBytes

variable {phase phase' : JoinPhase} {event : ServerEvent} {op : Op}
  {history : List (Op × Except JoinError Unit)}

theorem next_milestones (h : JoinDriver.next phase event = some (some phase')) :
    milestones phase' = [] ∨ milestones phase' = milestones phase ∨
      milestones phase' = milestones phase ++ [Accepts event] := by
  unfold JoinDriver.next at h
  split at h
  all_goals try split at h
  all_goals cases h
  all_goals first | exact .inl rfl | exact .inr (.inl rfl) | exact .inr (.inr rfl)

theorem next_downloading {received total : UInt64}
    (h : JoinDriver.next phase event = some (some (.downloading received total))) :
    (received = 0 ∧ total = 0) ∨
      (∃ old, phase = .downloading received old ∧ event = .manifest total) ∨
      ∃ old, phase = .downloading old total ∧ event = .chunkArrived received ∧
        ¬(received > total ∧ total > 0) := by
  unfold JoinDriver.next at h
  split at h
  all_goals try split at h
  all_goals cases h
  · exact .inl ⟨rfl, rfl⟩
  · exact .inr (.inl ⟨_, rfl, rfl⟩)
  · rename_i hfits
    exact .inr (.inr ⟨_, rfl, rfl, hfits⟩)

/-- Of the events that fit, only a manifest can break the bound. -/
theorem next_bounded_iff (h : JoinDriver.next phase event = some (some phase')) :
    Bounded phase' ↔ ∀ received total totalBytes, phase = .downloading received total →
      event = .manifest totalBytes → 0 < totalBytes → received ≤ totalBytes := by
  constructor
  · intro hbounded received total totalBytes hphase hevent
    subst hphase hevent
    cases h
    exact hbounded
  · intro hcovers
    cases phase' with
    | downloading received total =>
      intro hpos
      obtain ⟨rfl, rfl⟩ | ⟨old, hphase, hevent⟩ | ⟨old, -, -, hfits⟩ := next_downloading h
      · exact UInt64.le_refl 0
      · exact hcovers received old total hphase hevent hpos
      · exact UInt64.not_lt.mp (fun hlt ↦ hfits ⟨hlt, hpos⟩)
    | _ => trivial

def Idle (d : JoinDriver) (op : Op) : Prop :=
  d.phase.terminal = true ∨
    ∃ event nowTick, op = .apply event nowTick ∧ JoinDriver.next d.phase event = none

/-- What a call does: nothing if it is idle; otherwise it enters the next phase, or fails on a
cancellation. -/
theorem act_cases (d : JoinDriver) (op : Op) :
    (Idle d op ∧ (d.act op).1 = d) ∨
      (d.phase.terminal = false ∧ op = .cancel ∧
        d.act op = ({ d with phase := .failed "cancelled by user" }, .ok ())) ∨
      ∃ event nowTick next, d.phase.terminal = false ∧ op = .apply event nowTick ∧
        JoinDriver.next d.phase event = some next ∧
        d.act op = ({ d with phase := next.getD d.phase, lastEventTick := nowTick }, .ok ()) := by
  cases hopen : d.phase.terminal with
  | true =>
    refine .inl ⟨.inl hopen, ?_⟩
    cases op with
    | apply event nowTick => exact congrArg Prod.fst (apply_terminal hopen)
    | cancel => exact if_pos hopen
  | false =>
    cases op with
    | apply event nowTick =>
      cases hnext : JoinDriver.next d.phase event with
      | none =>
        refine .inl ⟨.inr ⟨event, nowTick, rfl, hnext⟩, ?_⟩
        exact congrArg Prod.fst (apply_unfit nowTick hopen hnext)
      | some next =>
        exact .inr (.inr ⟨event, nowTick, next, rfl, rfl, hnext, apply_next nowTick hopen hnext⟩)
    | cancel =>
      refine .inr (.inl ⟨rfl, rfl, ?_⟩)
      rw [JoinDriver.act, JoinDriver.cancel, hopen, if_neg Bool.false_ne_true]

theorem act_firm (d : JoinDriver) (op : Op) : Firm d op := by
  obtain ⟨-, hsame⟩ | hmoves := act_cases d op
  · exact ⟨fun _ ↦ by rw [hsame], fun _ ↦ by rw [hsame]; exact ⟨rfl, rfl⟩⟩
  · have hopen : d.phase.terminal = false ∧ (d.act op).2 = .ok () := by
      obtain ⟨hopen, -, hact⟩ | ⟨event, nowTick, next, hopen, -, -, hact⟩ := hmoves
      · exact ⟨hopen, by rw [hact]⟩
      · exact ⟨hopen, by rw [hact]⟩
    refine ⟨fun hterminal ↦ ?_, fun hrefused ↦ absurd hopen.2 hrefused⟩
    rw [hopen.1] at hterminal
    cases hterminal

theorem act_reached (op : Op) (h : Reached (fun _ ↦ false) (milestones d.phase) history) :
    Reached (fun _ ↦ false) (milestones (d.act op).1.phase) (history ++ [(op, (d.act op).2)]) := by
  obtain ⟨-, hsame⟩ | ⟨-, -, hact⟩ | ⟨event, nowTick, next, -, rfl, hnext, hact⟩ := act_cases d op
  · rw [hsame]
    exact h.skip rfl
  · rw [hact]
    exact reached_nil _
  · rw [hact]
    cases next with
    | none => exact h.skip rfl
    | some phase =>
      obtain hnone | hsame | hadds := next_milestones hnext
      · rw [Option.getD_some, hnone]
        exact reached_nil _
      · rw [Option.getD_some, hsame]
        exact h.skip rfl
      · rw [Option.getD_some, hadds]
        exact h.next rfl ⟨rfl, nowTick, rfl⟩

theorem act_bounded_iff (op : Op) (h : Bounded d.phase) :
    Bounded (d.act op).1.phase ↔ Covers d op := by
  obtain ⟨hidle, hsame⟩ | ⟨-, rfl, hact⟩ | ⟨event, nowTick, next, -, rfl, hnext, hact⟩ :=
    act_cases d op
  · rw [hsame]
    refine iff_of_true h (fun received total totalBytes nowTick hphase hop ↦ ?_)
    obtain hterminal | ⟨event, nowTick', hop', hnext⟩ := hidle
    · rw [hphase] at hterminal
      cases hterminal
    · cases hop.symm.trans hop'
      rw [hphase] at hnext
      cases hnext
  · rw [hact]
    exact iff_of_true trivial (fun _ _ _ _ _ hop ↦ nomatch hop)
  · rw [hact]
    cases next with
    | none =>
      refine iff_of_true h (fun received total totalBytes nowTick' hphase hop ↦ ?_)
      cases hop
      rw [hphase] at hnext
      cases hnext
    | some phase =>
      rw [Option.getD_some, next_bounded_iff hnext]
      constructor
      · intro hcovers received total totalBytes nowTick' hphase hop
        cases hop
        exact hcovers received total totalBytes hphase rfl
      · intro hcovers received total totalBytes hphase hevent
        exact hcovers received total totalBytes nowTick hphase (hevent ▸ rfl)

theorem new_eq (nowTick : UInt64) :
    JoinDriver.new nowTick = .withStallBudget nowTick stallBudgetTicks := rfl

/-- A join keeps its byte count within the manifest throughout, exactly when no manifest falls short
of what has been counted before it; the phases come in order and refusals change nothing anyway. -/
theorem join_sound_iff (nowTick stallBudget : UInt64) (ops : List Op) :
    (∀ before, before <+: ops →
        Sound (run JoinDriver.act (.withStallBudget nowTick stallBudget) before)
          (answers JoinDriver.act (.withStallBudget nowTick stallBudget) before)) ∧
        (∀ x ∈ trace JoinDriver.act (.withStallBudget nowTick stallBudget) ops, Firm x.1 x.2) ↔
      ∀ x ∈ trace JoinDriver.act (.withStallBudget nowTick stallBudget) ops, Covers x.1 x.2 := by
  refine steps_run_iff (B := fun d history ↦ Reached (fun _ ↦ false) (milestones d.phase) history)
    (fun d history op h _ ↦ act_reached op h) ?_ (reached_nil _) ?_ ops
  · intro d history op hreached hsound
    rw [and_iff_left (act_firm d op), ← act_bounded_iff op hsound.bounded]
    refine ⟨Sound.bounded, fun hbounded ↦ ⟨hbounded, fun hready ↦ ?_⟩⟩
    have hnext := act_reached op hreached
    rwa [hready] at hnext
  · exact ⟨trivial, nofun⟩

/-- Ten bytes come before a manifest of five. -/
theorem manifest_below_received :
    ¬∀ before, before <+: [Op.apply (.queuePosition 0) 1, .apply .queueAdmitted 2,
        .apply (.chunkArrived 10) 3, .apply (.manifest 5) 4] →
      Sound (run JoinDriver.act (.new 0) before) (answers JoinDriver.act (.new 0) before) := by
  rw [new_eq]
  intro h
  have hbounded : (0 : UInt64) < 5 → (10 : UInt64) ≤ 5 := (h _ List.prefix_rfl).bounded
  exact absurd (hbounded (by decide)) (by decide)

end Joins

end Aldivine.Joining.Driver
