import Mathlib
import Aldivine.Core.Basics
import Aldivine.Foundation.Execution

namespace Aldivine.Scheduling.Lanes

open Core.Error Foundation.Execution

inductive WorkloadClass
  | mainThread
  | asyncIo
  | parallelSafe
  | orderedGameplay
  | resourceLocal
  | networkProcessing
  | entityProcessing
  | background
deriving DecidableEq

def WorkloadClass.parallelEligible : WorkloadClass → Bool
  | .parallelSafe | .background | .networkProcessing => true
  | _ => false

/-- What the closures do is left to `ω`. -/
structure Task (ω : Type) where
  resource : String
  «class» : WorkloadClass
  work : ω
deriving DecidableEq

/-- A bounded channel of the runtime, with the messages that were sent and not yet received. -/
structure Channel (τ : Type) where
  State : Type
  Error : Type
  display : Error → String
  new : ℕ → State
  trySend : State → τ → Except Error State
  recv : State → Option (τ × State)
  dropReceiver : State → State
  queued : State → List τ

/-- A message that is accepted comes behind those sent before it, and the oldest is received first;
nothing is received when there is none. -/
structure Channel.Lawful {τ : Type} (C : Channel τ) : Prop where
  new : ∀ capacity, C.queued (C.new capacity) = []
  trySend : ∀ s t s', C.trySend s t = .ok s' → C.queued s' = C.queued s ++ [t]
  recv_nil : ∀ s, C.queued s = [] → C.recv s = none
  recv_cons : ∀ s t rest, C.queued s = t :: rest →
    ∃ s', C.recv s = some (t, s') ∧ C.queued s' = rest

inductive LaneName
  | ordered
  | parallel
  | async
deriving DecidableEq

def laneFor : WorkloadClass → LaneName
  | .parallelSafe | .networkProcessing | .background => .parallel
  | .asyncIo => .async
  | _ => .ordered

def queueCapacity : ℕ := 4096

/-- Where the loop of a lane stands: at its `recv`, in a task that it runs itself, or its future is
gone. -/
inductive Loop (ω : Type)
  | receiving
  | running (t : Task ω)
  | dropped

variable {ω : Type} {C : Channel (Task ω)}

structure Executor (C : Channel (Task ω)) where
  channels : LaneName → C.State
  loops : LaneName → Loop ω

inductive Outcome
  | returned (result : Except AldError Unit)
  | panicked

/-- What callers and the runtime do: a task is submitted, the future of a lane is polled, the task of
the ordered lane is over, the future of a lane is dropped. -/
inductive Event (ω : Type)
  | submit (t : Task ω)
  | poll (name : LaneName)
  | finish (outcome : Outcome)
  | drop (name : LaneName)

inductive Reply (ω : Type)
  | accepted (t : Task ω)
  | refused (e : AldError)
  | runs (t : Task ω)
  | spawnsBlocking (t : Task ω)
  | spawns (t : Task ω)
  | finished
  | silent

namespace Executor

def spawn (C : Channel (Task ω)) : Executor C :=
  ⟨fun _ ↦ C.new queueCapacity, fun _ ↦ .receiving⟩

def setChannel (ex : Executor C) (name : LaneName) (s : C.State) : Executor C :=
  { ex with channels := Function.update ex.channels name s }

def setLoop (ex : Executor C) (name : LaneName) (loop : Loop ω) : Executor C :=
  { ex with loops := Function.update ex.loops name loop }

def submit (ex : Executor C) (t : Task ω) : Executor C × Except AldError Unit :=
  match C.trySend (ex.channels (laneFor t.class)) t with
  | .error e => (ex, .error (.resource ("scheduler queue full: " ++ C.display e)))
  | .ok s => (ex.setChannel (laneFor t.class) s, .ok ())

/-- The body of a lane's loop, up to where it gives up control. -/
def body (ex : Executor C) (t : Task ω) : LaneName → Executor C × Reply ω
  | .ordered => (ex.setLoop .ordered (.running t), .runs t)
  | .parallel => (ex, .spawnsBlocking t)
  | .async => (ex, .spawns t)

/-- The future of a lane goes with the receiver that it owns. -/
def dropLane (ex : Executor C) (name : LaneName) : Executor C :=
  (ex.setLoop name .dropped).setChannel name (C.dropReceiver (ex.channels name))

def step (ex : Executor C) : Event ω → Executor C × Reply ω
  | .submit t =>
    match ex.submit t with
    | (ex, .ok ()) => (ex, .accepted t)
    | (ex, .error e) => (ex, .refused e)
  | .poll name =>
    match ex.loops name with
    | .receiving =>
      match C.recv (ex.channels name) with
      | none => (ex, .silent)
      | some (t, s) => (ex.setChannel name s).body t name
    | _ => (ex, .silent)
  | .finish outcome =>
    match ex.loops .ordered with
    | .running _ =>
      match outcome with
      | .returned _ => (ex.setLoop .ordered .receiving, .finished)
      | .panicked => (ex.dropLane .ordered, .finished)
    | _ => (ex, .silent)
  | .drop name =>
    match ex.loops name with
    | .running _ => (ex, .silent)
    | _ => (ex.dropLane name, .silent)

end Executor

def Reply.acceptedFor (name : LaneName) : Reply ω → Option (Task ω)
  | .accepted t => if laneFor t.class = name then some t else none
  | _ => none

def Reply.passedBy : LaneName → Reply ω → Option (Task ω)
  | .ordered, .runs t => some t
  | .parallel, .spawnsBlocking t => some t
  | .async, .spawns t => some t
  | _, _ => none

def Reply.ends : Reply ω → ℕ
  | .finished => 1
  | _ => 0

def accepted (name : LaneName) (history : List (Event ω × Reply ω)) : List (Task ω) :=
  history.filterMap (fun x ↦ x.2.acceptedFor name)

def passed (name : LaneName) (history : List (Event ω × Reply ω)) : List (Task ω) :=
  history.filterMap (fun x ↦ x.2.passedBy name)

def finished (history : List (Event ω × Reply ω)) : ℕ :=
  (history.map (fun x ↦ x.2.ends)).sum

structure Orderly (ex : Executor C) (history : List (Event ω × Reply ω)) : Prop where
  fifo : ∀ name, passed name history <+: accepted name history
  waiting : ∀ name, ex.loops name ≠ .dropped →
    accepted name history = passed name history ++ C.queued (ex.channels name)
  served : ∀ name t rest, ex.loops name = .receiving → C.queued (ex.channels name) = t :: rest →
    (ex.step (.poll name)).2.passedBy name = some t
  alone : finished history ≤ (passed .ordered history).length ∧
    (passed .ordered history).length ≤ finished history + 1
  apart : (∀ t ∈ passed .parallel history, t.class.parallelEligible = true) ∧
    (∀ t ∈ passed .async history, t.class = .asyncIo) ∧
    ∀ t ∈ passed .ordered history, t.class.parallelEligible = false ∧ t.class ≠ .asyncIo
  refusals : ∀ x ∈ history, ∀ e, x.2 = .refused e →
    ∃ reason, e = .resource ("scheduler queue full: " ++ C.display reason)

inductive Stepped (ex : Executor C) : Event ω → Executor C × Reply ω → Prop
  | silent {event} : Stepped ex event (ex, .silent)
  | refused {t reason} : Stepped ex (.submit t)
      (ex, .refused (.resource ("scheduler queue full: " ++ C.display reason)))
  | accepted {t s} (hsend : C.trySend (ex.channels (laneFor t.class)) t = .ok s) :
      Stepped ex (.submit t) (ex.setChannel (laneFor t.class) s, .accepted t)
  | passed {name t s} (hloop : ex.loops name = .receiving)
      (hrecv : C.recv (ex.channels name) = some (t, s)) :
      Stepped ex (.poll name) ((ex.setChannel name s).body t name)
  | returned {t result} (hloop : ex.loops .ordered = .running t) :
      Stepped ex (.finish (.returned result)) (ex.setLoop .ordered .receiving, .finished)
  | panicked {t} (hloop : ex.loops .ordered = .running t) :
      Stepped ex (.finish .panicked) (ex.dropLane .ordered, .finished)
  | dropped {name} (hloop : ∀ t, ex.loops name ≠ .running t) :
      Stepped ex (.drop name) (ex.dropLane name, .silent)

variable {ex : Executor C} {history : List (Event ω × Reply ω)}

theorem stepped (ex : Executor C) (event : Event ω) : Stepped ex event (ex.step event) := by
  cases event with
  | submit t =>
    simp only [Executor.step, Executor.submit]
    cases hsend : C.trySend (ex.channels (laneFor t.class)) t with
    | error reason => exact .refused
    | ok s => exact .accepted hsend
  | poll name =>
    simp only [Executor.step]
    split
    · rename_i hloop
      cases hrecv : C.recv (ex.channels name) with
      | none => exact .silent
      | some x => exact .passed hloop hrecv
    · exact .silent
  | finish outcome =>
    simp only [Executor.step]
    split
    · rename_i t hloop
      cases outcome with
      | returned result => exact .returned hloop
      | panicked => exact .panicked hloop
    · exact .silent
  | drop name =>
    simp only [Executor.step]
    split
    · exact .silent
    · rename_i hloop
      exact .dropped hloop

def Loop.busy : Loop ω → ℕ
  | .running _ => 1
  | _ => 0

structure Kept (ex : Executor C) (history : List (Event ω × Reply ω)) : Prop where
  fifo : ∀ name, passed name history <+: accepted name history
  waiting : ∀ name, ex.loops name ≠ .dropped →
    accepted name history = passed name history ++ C.queued (ex.channels name)
  alone : (passed .ordered history).length = finished history + (ex.loops .ordered).busy
  refusals : ∀ x ∈ history, ∀ e, x.2 = .refused e →
    ∃ reason, e = .resource ("scheduler queue full: " ++ C.display reason)

section Histories

variable {event : Event ω} {reply : Reply ω} {name : LaneName}

theorem filterMap_concat {f : Reply ω → Option (Task ω)} :
    (history ++ [(event, reply)]).filterMap (fun x ↦ f x.2) =
      history.filterMap (fun x ↦ f x.2) ++ (f reply).toList := by
  rw [List.filterMap_append]
  cases h : f reply <;> simp [h]

theorem accepted_concat :
    accepted name (history ++ [(event, reply)]) =
      accepted name history ++ (reply.acceptedFor name).toList :=
  filterMap_concat

theorem passed_concat :
    passed name (history ++ [(event, reply)]) =
      passed name history ++ (reply.passedBy name).toList :=
  filterMap_concat

theorem finished_concat :
    finished (history ++ [(event, reply)]) = finished history + reply.ends := by
  rw [finished, List.map_append, List.sum_append, List.map_singleton, List.sum_singleton]
  rfl

theorem laneFor_of_accepted {t : Task ω} (h : t ∈ accepted name history) :
    laneFor t.class = name := by
  obtain ⟨x, -, hx⟩ := List.mem_filterMap.mp h
  unfold Reply.acceptedFor at hx
  split at hx
  · split at hx
    · cases hx
      assumption
    · cases hx
  · cases hx

def Reply.Idle (reply : Reply ω) : Prop :=
  ∀ name, reply.acceptedFor name = none ∧ reply.passedBy name = none

theorem accepted_idle (h : reply.Idle) :
    accepted name (history ++ [(event, reply)]) = accepted name history := by
  rw [accepted_concat, (h name).1, Option.toList_none, List.append_nil]

theorem passed_idle (h : reply.Idle) :
    passed name (history ++ [(event, reply)]) = passed name history := by
  rw [passed_concat, (h name).2, Option.toList_none, List.append_nil]

theorem idle_silent : (Reply.silent : Reply ω).Idle := by
  intro name
  cases name <;> exact ⟨rfl, rfl⟩

theorem idle_finished : (Reply.finished : Reply ω).Idle := by
  intro name
  cases name <;> exact ⟨rfl, rfl⟩

theorem idle_refused (e : AldError) : (Reply.refused e : Reply ω).Idle := by
  intro name
  cases name <;> exact ⟨rfl, rfl⟩

end Histories

section Steps

variable {event : Event ω} {reply : Reply ω} {name : LaneName} {t : Task ω} {s : C.State}
  {rest : List (Task ω)}

theorem kept_spawn (hC : C.Lawful) : Kept (.spawn C) [] where
  fifo _ := List.nil_prefix
  waiting _ _ := (hC.new _).symm
  alone := rfl
  refusals := nofun

theorem refusals_concat (h : Kept ex history) (hreply : ∀ e, reply = .refused e →
      ∃ reason, e = .resource ("scheduler queue full: " ++ C.display reason)) :
    ∀ x ∈ history ++ [(event, reply)], ∀ e, x.2 = .refused e →
      ∃ reason, e = .resource ("scheduler queue full: " ++ C.display reason) := by
  rw [List.forall_mem_append, List.forall_mem_singleton]
  exact ⟨h.refusals, hreply⟩

theorem Kept.idle (h : Kept ex history) (hidle : reply.Idle) (hends : reply.ends = 0)
    (hreply : ∀ e, reply = .refused e →
      ∃ reason, e = .resource ("scheduler queue full: " ++ C.display reason)) :
    Kept ex (history ++ [(event, reply)]) where
  fifo name := by
    rw [accepted_idle hidle, passed_idle hidle]
    exact h.fifo name
  waiting name hloop := by
    rw [accepted_idle hidle, passed_idle hidle]
    exact h.waiting name hloop
  alone := by
    rw [passed_idle hidle, finished_concat, hends]
    exact h.alone
  refusals := refusals_concat h hreply

theorem Kept.accept (hC : C.Lawful) (h : Kept ex history)
    (hsend : C.trySend (ex.channels (laneFor t.class)) t = .ok s) :
    Kept (ex.setChannel (laneFor t.class) s) (history ++ [(event, .accepted t)]) := by
  have hpassed (n : LaneName) : passed n (history ++ [(event, .accepted t)]) = passed n history := by
    rw [passed_concat]
    cases n <;> exact List.append_nil _
  refine ⟨fun n ↦ ?_, fun n hloop ↦ ?_, ?_, refusals_concat h nofun⟩
  · rw [hpassed, accepted_concat]
    exact (h.fifo n).trans (List.prefix_append _ _)
  · rw [hpassed, accepted_concat, h.waiting n hloop, Reply.acceptedFor, List.append_assoc]
    by_cases hn : n = laneFor t.class
    · subst hn
      have hqueued := hC.trySend _ _ _ hsend
      simp only [Executor.setChannel, Function.update_self, if_true, Option.toList_some, hqueued]
    · simp only [Executor.setChannel, Function.update_of_ne hn, if_neg (Ne.symm hn),
        Option.toList_none, List.append_nil]
  · rw [hpassed, finished_concat]
    exact h.alone

theorem passedBy_body (ex : Executor C) (t : Task ω) (name n : LaneName) :
    (ex.body t name).2.passedBy n = if n = name then some t else none := by
  cases name <;> cases n <;> rfl

theorem acceptedFor_body (ex : Executor C) (t : Task ω) (name n : LaneName) :
    (ex.body t name).2.acceptedFor n = none := by
  cases name <;> rfl

theorem channels_body (ex : Executor C) (t : Task ω) (name : LaneName) :
    (ex.body t name).1.channels = ex.channels := by
  cases name <;> rfl

theorem loops_body (hloop : ex.loops name = .receiving) {n : LaneName}
    (hn : (ex.body t name).1.loops n ≠ .dropped) : ex.loops n ≠ .dropped := by
  cases name with
  | ordered =>
    by_cases hordered : n = .ordered
    · subst hordered
      rw [hloop]
      exact nofun
    · simpa [Executor.body, Executor.setLoop, hordered] using hn
  | parallel => exact hn
  | async => exact hn

theorem Kept.pass (hC : C.Lawful) (h : Kept ex history) (hloop : ex.loops name = .receiving)
    (hrecv : C.recv (ex.channels name) = some (t, s)) :
    Kept ((ex.setChannel name s).body t name).1
      (history ++ [(event, ((ex.setChannel name s).body t name).2)]) := by
  have hqueued : C.queued (ex.channels name) = t :: C.queued s := by
    cases hq : C.queued (ex.channels name) with
    | nil =>
      rw [hC.recv_nil _ hq] at hrecv
      cases hrecv
    | cons t' rest =>
      obtain ⟨s', hrecv', hrest⟩ := hC.recv_cons _ _ _ hq
      cases hrecv.symm.trans hrecv'
      rw [hrest]
  have hwaiting (n : LaneName) (hn : ex.loops n ≠ .dropped) :
      accepted n (history ++ [(event, ((ex.setChannel name s).body t name).2)]) =
        passed n (history ++ [(event, ((ex.setChannel name s).body t name).2)]) ++
          C.queued ((ex.setChannel name s).channels n) := by
    rw [accepted_concat, passed_concat, acceptedFor_body, passedBy_body, h.waiting n hn]
    by_cases hname : n = name
    · subst hname
      simp [Executor.setChannel, hqueued]
    · simp [Executor.setChannel, hname]
  refine ⟨fun n ↦ ?_, fun n hn ↦ ?_, ?_, refusals_concat h ?_⟩
  · by_cases hname : n = name
    · subst hname
      exact ⟨_, (hwaiting n (by rw [hloop]; exact nofun)).symm⟩
    · rw [accepted_concat, passed_concat, acceptedFor_body, passedBy_body, if_neg hname]
      simpa using h.fifo n
  · rw [channels_body]
    have hreceiving : (ex.setChannel name s).loops name = .receiving := hloop
    exact hwaiting n (loops_body hreceiving hn)
  · rw [passed_concat, finished_concat, List.length_append, h.alone, passedBy_body]
    cases name with
    | ordered =>
      rw [hloop]
      simp [Executor.body, Executor.setLoop, Reply.ends, Loop.busy]
    | parallel => rfl
    | async => rfl
  · cases name <;> exact nofun

theorem Kept.return (h : Kept ex history) (hloop : ex.loops .ordered = .running t) :
    Kept (ex.setLoop .ordered .receiving) (history ++ [(event, .finished)]) where
  fifo name := by
    rw [accepted_idle idle_finished, passed_idle idle_finished]
    exact h.fifo name
  waiting name hname := by
    rw [accepted_idle idle_finished, passed_idle idle_finished]
    refine h.waiting name ?_
    by_cases hordered : name = .ordered
    · subst hordered
      rw [hloop]
      exact nofun
    · simpa [Executor.setLoop, hordered] using hname
  alone := by
    rw [passed_idle idle_finished, finished_concat, h.alone, hloop]
    simp [Executor.setLoop, Reply.ends, Loop.busy]
  refusals := refusals_concat h nofun

theorem Kept.drop (h : Kept ex history) (hloop : ∀ t, ex.loops name ≠ .running t) :
    Kept (ex.dropLane name) history where
  fifo := h.fifo
  waiting n hn := by
    have hne : n ≠ name := by
      rintro rfl
      exact hn (by simp [Executor.dropLane, Executor.setLoop, Executor.setChannel])
    rw [h.waiting n (by simpa [Executor.dropLane, Executor.setLoop, Executor.setChannel, hne]
      using hn)]
    simp [Executor.dropLane, Executor.setLoop, Executor.setChannel, hne]
  alone := by
    rw [h.alone]
    by_cases hordered : name = .ordered
    · subst hordered
      cases hstands : ex.loops .ordered with
      | receiving => simp [Executor.dropLane, Executor.setLoop, Executor.setChannel, Loop.busy]
      | running t => exact absurd hstands (hloop t)
      | dropped => simp [Executor.dropLane, Executor.setLoop, Executor.setChannel, Loop.busy]
    · simp [Executor.dropLane, Executor.setLoop, Executor.setChannel, Ne.symm hordered]
  refusals := h.refusals

end Steps

theorem step_kept (hC : C.Lawful) (event : Event ω) (h : Kept ex history) :
    Kept (ex.step event).1 (history ++ [(event, (ex.step event).2)]) := by
  have hstepped := stepped ex event
  generalize ex.step event = result at hstepped
  cases hstepped with
  | silent => exact h.idle idle_silent rfl nofun
  | refused =>
    refine h.idle (idle_refused _) rfl ?_
    rintro e ⟨⟩
    exact ⟨_, rfl⟩
  | accepted hsend => exact h.accept hC hsend
  | passed hloop hrecv => exact h.pass hC hloop hrecv
  | returned hloop => exact h.return hloop
  | panicked hloop =>
    -- the loop is left as by a return, and dropped with its future
    have hreturned : Kept (ex.setLoop .ordered .receiving)
        (history ++ [(.finish .panicked, .finished)]) := h.return hloop
    have hdropped : Kept ((ex.setLoop .ordered .receiving).dropLane .ordered)
        (history ++ [(.finish .panicked, .finished)]) :=
      hreturned.drop (by simp [Executor.setLoop])
    simpa [Executor.dropLane, Executor.setLoop, Executor.setChannel] using hdropped
  | dropped hloop => exact (h.idle idle_silent rfl nofun).drop hloop

theorem Kept.account (hC : C.Lawful) (h : Kept ex history) : Orderly ex history := by
  have hlane (name : LaneName) (t : Task ω) (ht : t ∈ passed name history) :
      laneFor t.class = name :=
    laneFor_of_accepted ((h.fifo name).subset ht)
  refine ⟨h.fifo, h.waiting, fun name t rest hloop hqueued ↦ ?_, ?_, ⟨?_, ?_, ?_⟩, h.refusals⟩
  · obtain ⟨s, hrecv, -⟩ := hC.recv_cons _ _ _ hqueued
    simp only [Executor.step, hloop, hrecv]
    rw [passedBy_body, if_pos rfl]
  · have halone := h.alone
    cases hloop : ex.loops .ordered <;> simp only [hloop, Loop.busy] at halone <;> omega
  · intro t ht
    have hclass := hlane .parallel t ht
    generalize t.class = c at hclass
    cases c <;> first | rfl | cases hclass
  · intro t ht
    have hclass := hlane .async t ht
    generalize t.class = c at hclass
    cases c <;> first | rfl | cases hclass
  · intro t ht
    have hclass := hlane .ordered t ht
    generalize t.class = c at hclass
    cases c <;> first | exact ⟨rfl, by decide⟩ | cases hclass

/-- However callers and the runtime take turns: every lane passes on, once and in order, the tasks
that were let in for its classes, and while it stands the others wait in its channel; the ordered
lane begins no task before the one before it is over. -/
theorem lanes_orderly (hC : C.Lawful) (events : List (Event ω)) :
    Orderly (run Executor.step (.spawn C) events) (answers Executor.step (.spawn C) events) := by
  have hkept := invariant_throughout (P := fun _ _ _ ↦ True) (I := Kept)
    (fun _ _ event hkept _ ↦ step_kept hC event hkept) (kept_spawn hC) events
    (fun _ _ _ ↦ trivial)
  exact hkept.account hC

/-- A channel as a list, with its capacity and whether the receiver is still there. -/
def listChannel (τ : Type) : Channel τ where
  State := List τ × ℕ × Bool
  Error := Bool
  display full := if full then "no available capacity" else "channel closed"
  new capacity := ([], capacity, true)
  trySend s t :=
    if !s.2.2 then .error false
    else if s.2.1 ≤ s.1.length then .error true
    else .ok (s.1 ++ [t], s.2)
  recv s :=
    match s.1 with
    | [] => none
    | t :: rest => some (t, rest, s.2)
  dropReceiver s := ([], s.2.1, false)
  queued s := s.1

theorem listChannel_lawful (τ : Type) : (listChannel τ).Lawful where
  new _ := rfl
  trySend s t s' h := by
    simp only [listChannel] at h
    split at h
    · cases h
    · split at h
      · cases h
      · cases h
        rfl
  recv_nil s h := by
    obtain ⟨queue, rest⟩ := s
    cases (show queue = [] from h)
    rfl
  recv_cons s t rest h := by
    obtain ⟨queue, more⟩ := s
    cases (show queue = t :: rest from h)
    exact ⟨_, rfl, rfl⟩

/-- Two gameplay tasks and a background one; the second waits until the first, which fails, is over. -/
def busyEvents : List (Event ℕ) :=
  [.submit ⟨"core/a", .mainThread, 1⟩, .submit ⟨"core/b", .background, 2⟩,
    .submit ⟨"core/c", .entityProcessing, 3⟩, .poll .ordered, .poll .parallel, .poll .ordered,
    .finish (.returned (.error (.other "failed"))), .poll .ordered, .drop .parallel]

theorem busyEvents_orderly :
    (passed .ordered (answers Executor.step (.spawn (listChannel (Task ℕ))) busyEvents)).map
        (·.work) = [1, 3] ∧
      finished (answers Executor.step (.spawn (listChannel (Task ℕ))) busyEvents) = 1 ∧
      Orderly (run Executor.step (.spawn (listChannel (Task ℕ))) busyEvents)
        (answers Executor.step (.spawn (listChannel (Task ℕ))) busyEvents) :=
  ⟨rfl, rfl, lanes_orderly (listChannel_lawful (Task ℕ)) busyEvents⟩

end Aldivine.Scheduling.Lanes
