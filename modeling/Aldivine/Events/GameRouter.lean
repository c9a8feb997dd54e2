import Aldivine.Foundation.Execution
import Aldivine.Foundation.Table
import Mathlib.Algebra.Order.Ring.Nat
import Mathlib.Order.Bounds.Basic

namespace Aldivine.Events.GameRouter

open Foundation.Execution Foundation.Table

def maxPayloadLen : ℕ := 64 * 1024

def knownEvents : List String :=
  ["gameEventTriggered", "entityDamaged", "populationTick", "resourceLifecycle", "bucketChanged",
    "entityCreated", "entityDestroyed"]

structure Envelope where
  name : String
  producer : UInt64
  seq : BitVec 32
  payload : List UInt8
deriving DecidableEq

inductive RouterError
  | unknownEvent (name : String)
  | payloadTooLarge (size : ℕ)
  | noSuchSubscription
deriving DecidableEq

def Envelope.new (name : String) (producer : UInt64) (seq : BitVec 32) (payload : List UInt8) :
    Except RouterError Envelope :=
  if name ∉ knownEvents then .error (.unknownEvent name)
  else if maxPayloadLen < payload.length then .error (.payloadTooLarge payload.length)
  else .ok ⟨name, producer, seq, payload⟩

/-- `subs` in the order of the ids, which only grow. A handler is told by the id of its
subscription. -/
structure Router where
  subs : List (ℕ × String)
  nextSub : ℕ
  lastSeq : AList (fun _ : UInt64 ↦ BitVec 32)
  delivered : ℕ
  droppedReplay : ℕ

def seqIsNewer (a b : BitVec 32) : Bool := a ≠ b && decide (a - b < 1#32 <<< 31)

namespace Router

def new : Router := ⟨[], 0, ∅, 0, 0⟩

def subscribe (r : Router) (event : String) : Router × Except RouterError ℕ :=
  if event ∉ knownEvents then (r, .error (.unknownEvent event))
  else ({ r with subs := r.subs ++ [(r.nextSub, event)], nextSub := r.nextSub + 1 }, .ok r.nextSub)

def unsubscribe (r : Router) (id : ℕ) : Router × Except RouterError Unit :=
  if r.subs.any (fun sub ↦ sub.1 = id) then
    ({ r with subs := r.subs.filter (fun sub ↦ sub.1 ≠ id) }, .ok ())
  else (r, .error .noSuchSubscription)

def publish (r : Router) (env : Envelope) : Router × List ℕ :=
  if (r.lastSeq.lookup env.producer).any (fun last ↦ !seqIsNewer env.seq last) then
    ({ r with droppedReplay := r.droppedReplay + 1 }, [])
  else
    ({ r with lastSeq := r.lastSeq.insert env.producer env.seq, delivered := r.delivered + 1 },
      (r.subs.filter (fun sub ↦ sub.2 = env.name)).map (·.1))

end Router

/-- An envelope with its place in the unbounded sequence of its producer. -/
structure Occurrence where
  name : String
  producer : UInt64
  number : ℕ
  payload : List UInt8
deriving DecidableEq

def Occurrence.envelope (o : Occurrence) : Envelope :=
  ⟨o.name, o.producer, BitVec.ofNat 32 o.number, o.payload⟩

inductive Call
  | subscribe (event : String)
  | unsubscribe (id : ℕ)
  | publish (o : Occurrence)
deriving DecidableEq

inductive Answer
  | subscribed (result : Except RouterError ℕ)
  | unsubscribed (result : Except RouterError Unit)
  | published (ids : List ℕ)

def step (r : Router) : Call → Router × Answer
  | .subscribe event => ((r.subscribe event).1, .subscribed (r.subscribe event).2)
  | .unsubscribe id => ((r.unsubscribe id).1, .unsubscribed (r.unsubscribe id).2)
  | .publish o => ((r.publish o.envelope).1, .published (r.publish o.envelope).2)

def Published (calls : List Call) (producer : UInt64) (number : ℕ) : Prop :=
  ∃ o, .publish o ∈ calls ∧ o.producer = producer ∧ o.number = number

def Fresh (before : List Call) (o : Occurrence) : Prop :=
  ∀ number, Published before o.producer number → number < o.number

/-- No producer strays from its largest number by half the sequence space. -/
def StaysNear (calls : List Call) : Prop :=
  ∀ before o, before ++ [.publish o] <+: calls →
    ∀ largest, IsGreatest {number | Published before o.producer number} largest →
      o.number < largest + 2 ^ 31 ∧ largest ≤ o.number + 2 ^ 31

def Standing (history : List (Call × Answer)) (id : ℕ) (event : String) : Prop :=
  ∃ before after, history = before ++ (.subscribe event, .subscribed (.ok id)) :: after ∧
    ∀ x ∈ after, x.1 ≠ .unsubscribe id

def heard (id : ℕ) (producer : UInt64) (history : List (Call × Answer)) : List ℕ :=
  history.filterMap fun
    | (.publish o, .published ids) =>
      if id ∈ ids ∧ o.producer = producer then some o.number else none
    | _ => none

variable {r : Router} {calls : List Call} {call : Call} {history : List (Call × Answer)}
  {o : Occurrence} {event : String} {id number largest : ℕ} {producer : UInt64} {answer : Answer}

theorem seqIsNewer_iff (hahead : number < largest + 2 ^ 31) (hbehind : largest ≤ number + 2 ^ 31) :
    seqIsNewer (BitVec.ofNat 32 number) (BitVec.ofNat 32 largest) = true ↔ largest < number := by
  rw [seqIsNewer, Bool.and_eq_true, decide_eq_true_eq, decide_eq_true_eq, BitVec.lt_def,
    ne_eq, ← BitVec.toNat_inj]
  simp only [BitVec.toNat_sub, BitVec.toNat_ofNat]
  have hhalf : (1#32 <<< 31).toNat = 2 ^ 31 := rfl
  rw [hhalf]
  omega

section Numbers

theorem published_concat : Published (calls ++ [call]) producer number ↔
    Published calls producer number ∨
      ∃ o, call = .publish o ∧ o.producer = producer ∧ o.number = number := by
  simp only [Published, List.mem_append, List.mem_singleton, or_and_right, exists_or]
  refine or_congr_right (exists_congr (fun o ↦ ?_))
  rw [eq_comm]

theorem staysNear_concat : StaysNear (calls ++ [call]) ↔
    StaysNear calls ∧ ∀ o, call = .publish o →
      ∀ largest, IsGreatest {number | Published calls o.producer number} largest →
        o.number < largest + 2 ^ 31 ∧ largest ≤ o.number + 2 ^ 31 := by
  constructor
  · intro h
    refine ⟨fun before o hpre ↦ h before o (hpre.trans (List.prefix_append _ _)), ?_⟩
    rintro o rfl
    exact h calls o List.prefix_rfl
  · intro h before o hpre
    rcases List.prefix_concat_iff.mp hpre with heq | hpre
    · obtain ⟨rfl, hlast⟩ := List.append_inj' heq rfl
      exact h.2 o (List.singleton_inj.mp hlast).symm
    · exact h.1 before o hpre

def Tells (last : Option (BitVec 32)) (calls : List Call) (producer : UInt64) : Prop :=
  match last with
  | none => ∀ number, ¬Published calls producer number
  | some last => ∃ largest, IsGreatest {number | Published calls producer number} largest ∧
      last = BitVec.ofNat 32 largest

def Follows (r : Router) (calls : List Call) : Prop :=
  ∀ producer, Tells (r.lastSeq.lookup producer) calls producer

theorem published_publish : Published (calls ++ [.publish o]) producer number ↔
    Published calls producer number ∨ o.producer = producer ∧ o.number = number := by
  rw [published_concat]
  simp only [Call.publish.injEq, exists_eq_left']

theorem Tells.same {calls' : List Call} {last : Option (BitVec 32)} (h : Tells last calls producer)
    (hsame : ∀ number, Published calls' producer number ↔ Published calls producer number) :
    Tells last calls' producer := by
  unfold Tells at h ⊢
  simp only [hsame]
  exact h

/-- A number that is no larger than another one before changes nothing. -/
theorem Tells.replay {last : Option (BitVec 32)} (h : Tells last calls producer)
    (hlater : ∃ later, Published calls o.producer later ∧ o.number ≤ later) :
    Tells last (calls ++ [.publish o]) producer := by
  obtain ⟨later, hlater, hle⟩ := hlater
  cases last with
  | none =>
    intro number hnumber
    rcases published_publish.mp hnumber with hnumber | ⟨rfl, rfl⟩
    · exact h number hnumber
    · exact h later hlater
  | some last =>
    obtain ⟨largest, hlargest, hlast⟩ := h
    refine ⟨largest, ⟨published_publish.mpr (.inl hlargest.1), fun number hnumber ↦ ?_⟩, hlast⟩
    rcases published_publish.mp hnumber with hnumber | ⟨rfl, rfl⟩
    · exact hlargest.2 hnumber
    · exact hle.trans (hlargest.2 hlater)

theorem tells_fresh (hfresh : Fresh calls o) :
    Tells (some o.envelope.seq) (calls ++ [.publish o]) o.producer := by
  refine ⟨o.number, ⟨published_publish.mpr (.inr ⟨rfl, rfl⟩), fun number hnumber ↦ ?_⟩, rfl⟩
  rcases published_publish.mp hnumber with hnumber | ⟨-, rfl⟩
  · exact (hfresh number hnumber).le
  · exact le_rfl

theorem follows_fresh (hf : Follows r calls)
    (hnear : ∀ largest, IsGreatest {number | Published calls o.producer number} largest →
      o.number < largest + 2 ^ 31 ∧ largest ≤ o.number + 2 ^ 31) :
    (r.lastSeq.lookup o.envelope.producer).any (fun last ↦ !seqIsNewer o.envelope.seq last) = true ↔
      ¬Fresh calls o := by
  have hproducer := hf o.envelope.producer
  cases hlookup : r.lastSeq.lookup o.envelope.producer with
  | none =>
    rw [hlookup] at hproducer
    simp only [Option.any_none, Bool.false_eq_true, false_iff, not_not]
    exact fun number hnumber ↦ absurd hnumber (hproducer number)
  | some last =>
    rw [hlookup] at hproducer
    obtain ⟨largest, hlargest, rfl⟩ := hproducer
    obtain ⟨hahead, hbehind⟩ := hnear largest hlargest
    rw [Option.any_some, Bool.not_eq_true', ← Bool.not_eq_true, not_iff_not]
    refine (seqIsNewer_iff hahead hbehind).trans ⟨fun hlt number hnumber ↦ ?_, ?_⟩
    · exact (hlargest.2 hnumber).trans_lt hlt
    · exact fun hfresh ↦ hfresh largest hlargest.1

theorem follows_step (hf : Follows r calls)
    (hnear : ∀ o, call = .publish o →
      ∀ largest, IsGreatest {number | Published calls o.producer number} largest →
        o.number < largest + 2 ^ 31 ∧ largest ≤ o.number + 2 ^ 31) :
    Follows (step r call).1 (calls ++ [call]) := by
  intro producer
  have hother (hcall : ∀ o, call ≠ .publish o) (number : ℕ) :
      Published (calls ++ [call]) producer number ↔ Published calls producer number :=
    published_concat.trans (or_iff_left (fun ⟨o, ho, _⟩ ↦ hcall o ho))
  cases call with
  | subscribe event =>
    have hkept : (step r (.subscribe event)).1.lastSeq = r.lastSeq := by
      simp only [step, Router.subscribe]
      split <;> rfl
    rw [hkept]
    exact (hf producer).same (hother (fun o ho ↦ by cases ho))
  | unsubscribe id =>
    have hkept : (step r (.unsubscribe id)).1.lastSeq = r.lastSeq := by
      simp only [step, Router.unsubscribe]
      split <;> rfl
    rw [hkept]
    exact (hf producer).same (hother (fun o ho ↦ by cases ho))
  | publish o =>
    have hfresh := follows_fresh hf (hnear o rfl)
    simp only [step, Router.publish]
    split_ifs with hold
    · rw [hfresh, Fresh] at hold
      push Not at hold
      exact (hf producer).replay hold
    · rw [hfresh, not_not] at hold
      dsimp only
      rw [lookup_insert_ite]
      split
      · rename_i heq
        rw [heq]
        exact tells_fresh hold
      · rename_i hne
        refine (hf producer).same (fun number ↦ published_publish.trans (or_iff_left ?_))
        exact fun h ↦ hne h.1.symm

theorem follows_run (hnear : StaysNear calls) : Follows (run step .new calls) calls := by
  induction calls using List.reverseRecOn with
  | nil => exact fun producer number ⟨o, ho, _⟩ ↦ absurd ho (List.not_mem_nil)
  | append_singleton calls call ih =>
    obtain ⟨hbefore, hcall⟩ := staysNear_concat.mp hnear
    rw [run_concat]
    exact follows_step (ih hbefore) hcall

end Numbers

section Subscriptions

/-- The subscriptions are those that stand, and their ids were given out in order. -/
structure Keeps (r : Router) (history : List (Call × Answer)) : Prop where
  sorted : (r.subs.map (·.1)).Pairwise (· < ·)
  below : ∀ sub ∈ r.subs, sub.1 < r.nextSub
  standing : ∀ id event, (id, event) ∈ r.subs ↔ Standing history id event

theorem standing_concat : Standing (history ++ [(call, answer)]) id event ↔
    Standing history id event ∧ call ≠ .unsubscribe id ∨
      call = .subscribe event ∧ answer = .subscribed (.ok id) := by
  constructor
  · rintro ⟨before, after, heq, hafter⟩
    rcases List.eq_nil_or_concat after with rfl | ⟨after, last, rfl⟩
    · obtain ⟨-, hlast⟩ := List.append_inj' heq rfl
      exact .inr (Prod.mk.inj (List.singleton_inj.mp hlast))
    · rw [List.concat_eq_append] at heq hafter
      rw [← List.cons_append, ← List.append_assoc] at heq
      obtain ⟨rfl, hlast⟩ := List.append_inj' heq rfl
      rw [List.forall_mem_append, List.forall_mem_singleton, ← List.singleton_inj.mp hlast]
        at hafter
      exact .inl ⟨⟨before, after, rfl, hafter.1⟩, hafter.2⟩
  · rintro (⟨⟨before, after, rfl, hafter⟩, hcall⟩ | ⟨rfl, rfl⟩)
    · refine ⟨before, after ++ [(call, answer)], by simp, ?_⟩
      rw [List.forall_mem_append, List.forall_mem_singleton]
      exact ⟨hafter, hcall⟩
    · exact ⟨history, [], rfl, List.forall_mem_nil _⟩

theorem Keeps.subscribe (h : Keeps r history) (event : String) :
    Keeps (r.subscribe event).1
      (history ++ [(.subscribe event, .subscribed (r.subscribe event).2)]) := by
  by_cases hknown : event ∉ knownEvents
  · rw [Router.subscribe, if_pos hknown]
    refine ⟨h.sorted, h.below, fun id event' ↦ ?_⟩
    rw [standing_concat, ← h.standing]
    simp only [ne_eq, reduceCtorEq, not_false_eq_true, and_true, Answer.subscribed.injEq, and_false,
      or_false]
  · rw [Router.subscribe, if_neg hknown]
    refine ⟨?_, ?_, fun id event' ↦ ?_⟩
    · rw [List.map_append, List.pairwise_append]
      refine ⟨h.sorted, List.pairwise_singleton _ _, fun id hid last hlast ↦ ?_⟩
      obtain ⟨sub, hsub, rfl⟩ := List.mem_map.mp hid
      rw [List.mem_singleton.mp hlast]
      exact h.below sub hsub
    · rw [List.forall_mem_append, List.forall_mem_singleton]
      exact ⟨fun sub hsub ↦ (h.below sub hsub).trans (Nat.lt_succ_self _), Nat.lt_succ_self _⟩
    · rw [standing_concat, ← h.standing, List.mem_append, List.mem_singleton]
      simp [and_comm, eq_comm]

theorem Keeps.unsubscribe (h : Keeps r history) (id : ℕ) :
    Keeps (r.unsubscribe id).1
      (history ++ [(.unsubscribe id, .unsubscribed (r.unsubscribe id).2)]) := by
  unfold Router.unsubscribe
  split
  · refine ⟨h.sorted.sublist (List.filter_sublist.map _),
      fun sub hsub ↦ h.below sub (List.mem_of_mem_filter hsub), fun id' event ↦ ?_⟩
    rw [standing_concat, ← h.standing, List.mem_filter, decide_eq_true_eq, ne_comm]
    simp
  · rename_i hnone
    refine ⟨h.sorted, h.below, fun id' event ↦ ?_⟩
    rw [standing_concat, ← h.standing]
    simp only [List.any_eq_true, decide_eq_true_eq, not_exists, not_and] at hnone
    constructor
    · intro hmem
      exact .inl ⟨hmem, fun heq ↦ hnone _ hmem (Call.unsubscribe.inj heq).symm⟩
    · rintro (⟨hmem, -⟩ | ⟨hcall, -⟩)
      · exact hmem
      · cases hcall

theorem Keeps.publish (h : Keeps r history) (o : Occurrence) :
    Keeps (r.publish o.envelope).1
      (history ++ [(.publish o, .published (r.publish o.envelope).2)]) := by
  have hstanding (id : ℕ) (event : String) (answer : Answer) : (id, event) ∈ r.subs ↔
      Standing (history ++ [(.publish o, answer)]) id event := by
    rw [standing_concat, ← h.standing]
    simp
  unfold Router.publish
  split
  · exact ⟨h.sorted, h.below, fun id event ↦ hstanding id event _⟩
  · exact ⟨h.sorted, h.below, fun id event ↦ hstanding id event _⟩

theorem keeps_run (calls : List Call) : Keeps (run step .new calls) (answers step .new calls) := by
  induction calls using List.reverseRecOn with
  | nil =>
    refine ⟨List.Pairwise.nil, List.forall_mem_nil _, fun id event ↦ ?_⟩
    refine iff_of_false List.not_mem_nil ?_
    rintro ⟨before, after, heq, -⟩
    exact List.append_ne_nil_of_right_ne_nil _ (List.cons_ne_nil _ _) heq.symm
  | append_singleton calls call ih =>
    rw [run_concat, answers_concat]
    cases call with
    | subscribe event => exact ih.subscribe event
    | unsubscribe id => exact ih.unsubscribe id
    | publish o => exact ih.publish o

end Subscriptions

/-- An occurrence that is newer than all before is brought to the standing subscriptions to its
event, in the order in which they were made, and another one to none. -/
theorem publish_called (hnear : StaysNear (calls ++ [.publish o])) :
    ∃ ids, (step (run step .new calls) (.publish o)).2 = .published ids ∧ ids.Pairwise (· < ·) ∧
      ∀ id, id ∈ ids ↔ Fresh calls o ∧ Standing (answers step .new calls) id o.name := by
  have hkeeps := keeps_run calls
  obtain ⟨hbefore, hcall⟩ := staysNear_concat.mp hnear
  have hfresh := follows_fresh (follows_run hbefore) (hcall o rfl)
  simp only [step, Router.publish]
  split_ifs with hold
  · refine ⟨[], rfl, List.Pairwise.nil, fun id ↦ iff_of_false List.not_mem_nil ?_⟩
    exact fun h ↦ hfresh.mp hold h.1
  · rw [hfresh, not_not] at hold
    refine ⟨_, rfl, hkeeps.sorted.sublist (List.filter_sublist.map _), fun id ↦ ?_⟩
    rw [and_iff_right hold, ← hkeeps.standing]
    simp only [List.mem_map, List.mem_filter, decide_eq_true_eq, Prod.exists, exists_and_right,
      exists_eq_right]
    rfl

theorem StaysNear.of_prefix {before : List Call} (h : StaysNear calls) (hpre : before <+: calls) :
    StaysNear before := fun first o hfirst ↦ h first o (hfirst.trans hpre)

/-- Producers whose numbers are all close to each other do not stray. -/
theorem staysNear_of_close (h : ∀ o o', .publish o ∈ calls → .publish o' ∈ calls →
    o.number < o'.number + 2 ^ 31) : StaysNear calls := by
  rintro before o hpre largest ⟨⟨o', ho', -, rfl⟩, -⟩
  have hmem {call : Call} (hcall : call ∈ before ++ [.publish o]) : call ∈ calls :=
    hpre.subset hcall
  have hlast := hmem (List.mem_append_right _ (List.mem_singleton_self _))
  have hearlier := hmem (List.mem_append_left _ ho')
  exact ⟨h o o' hlast hearlier, (h o' o hearlier hlast).le⟩

theorem mem_heard : number ∈ heard id producer history ↔
    ∃ o ids, (.publish o, .published ids) ∈ history ∧ id ∈ ids ∧ o.producer = producer ∧
      o.number = number := by
  rw [heard, List.mem_filterMap]
  constructor
  · rintro ⟨⟨call, answer⟩, hmem, hsome⟩
    split at hsome
    · rename_i o ids heq
      split_ifs at hsome with hin
      cases heq
      cases hsome
      exact ⟨o, ids, hmem, hin.1, hin.2, rfl⟩
    · cases hsome
  · rintro ⟨o, ids, hmem, hid, hproducer, rfl⟩
    exact ⟨_, hmem, if_pos ⟨hid, hproducer⟩⟩

/-- When no producer strays by half the sequence space, every occurrence is brought to the standing
subscriptions to its event if it is newer than all of its producer before, and to none otherwise: a
subscription hears the numbers of a producer in order, and each of them once. -/
theorem heard_in_order (hnear : StaysNear calls) :
    (∀ before o, before ++ [.publish o] <+: calls →
      ∃ ids, (step (run step .new before) (.publish o)).2 = .published ids ∧
        ids.Pairwise (· < ·) ∧
        ∀ id, id ∈ ids ↔ Fresh before o ∧ Standing (answers step .new before) id o.name) ∧
      ∀ id producer, (heard id producer (answers step .new calls)).Pairwise (· < ·) := by
  have hcalled (before : List Call) (o : Occurrence) (hpre : before ++ [.publish o] <+: calls) :=
    publish_called (hnear.of_prefix hpre)
  refine ⟨hcalled, fun id producer ↦ ?_⟩
  clear hcalled
  induction calls using List.reverseRecOn with
  | nil => exact List.Pairwise.nil
  | append_singleton calls call ih =>
    have hbefore := hnear.of_prefix (List.prefix_append _ _)
    rw [answers_concat, heard, List.filterMap_append, List.pairwise_append]
    refine ⟨ih hbefore, List.pairwise_filterMap.mpr (List.pairwise_singleton _ _), ?_⟩
    intro earlier hearlier number hnumber
    obtain ⟨o, ids, hlast, hid, rfl, rfl⟩ := mem_heard.mp hnumber
    obtain ⟨o', ids', hmem', -, hproducer, rfl⟩ := mem_heard.mp hearlier
    obtain ⟨rfl, hids⟩ := Prod.mk.inj (List.mem_singleton.mp hlast)
    obtain ⟨_, hcalled, -, hmem⟩ := publish_called hnear
    rw [hcalled] at hids
    cases hids
    have hin : Call.publish o' ∈ calls := by
      rw [← answers_inputs step .new calls]
      exact List.mem_map_of_mem hmem'
    exact ((hmem id).mp hid).1 o'.number ⟨o', hin, hproducer, rfl⟩

def damaged (number : ℕ) : Occurrence := ⟨"entityDamaged", 7, number, [1, 2]⟩

/-- The wire numbers of the last three are the largest one, zero, and the largest one again. -/
def wrapping : List Call :=
  [.subscribe "entityDamaged", .publish (damaged 4294967295), .publish (damaged 4294967296),
    .publish (damaged 4294967295)]

theorem wrapping_heard_in_order : (heard 0 7 (answers step .new wrapping)).Pairwise (· < ·) :=
  (heard_in_order (staysNear_of_close (fun o o' ho ho' ↦ by
    simp only [wrapping, damaged, List.mem_cons, reduceCtorEq, Call.publish.injEq, List.not_mem_nil,
      false_or, or_false] at ho ho'
    rcases ho with rfl | rfl | rfl <;> rcases ho' with rfl | rfl | rfl <;> decide))).2 0 7

end Aldivine.Events.GameRouter
