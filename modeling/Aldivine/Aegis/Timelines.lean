import Aldivine.Clocks.Estimator
import Mathlib.Data.List.Sort

namespace Aldivine.Aegis.Timelines

open Clocks.Estimator (maxByKey maxByKey_spec exists_maxByKey perm_of_length_lt)

inductive TimelineKind
  | deployment
  | configChange
  | resourceRestart
  | serverRestart
  | playerSpike
  | performanceAnomaly
  | crash
  | alert
  | audit
deriving DecidableEq

structure TimelineEvent where
  timestamp : ℕ
  kind : TimelineKind
  actor : Option String
  subject : String
  detail : String
deriving DecidableEq

structure IncidentTimeline where
  events : List TimelineEvent
  capacity : ℕ
deriving DecidableEq

/-- `sort_by_key` leaves events of one time in their order. -/
def sortByTimestamp (events : List TimelineEvent) : List TimelineEvent :=
  events.insertionSort (fun a b ↦ a.timestamp ≤ b.timestamp)

namespace IncidentTimeline

def new (capacity : ℕ) : IncidentTimeline := ⟨[], max capacity 1⟩

def record (t : IncidentTimeline) (event : TimelineEvent) : IncidentTimeline :=
  let events := t.events ++ [event]
  let events := if events.length > t.capacity then events.tail else events
  { t with events := sortByTimestamp events }

def immediatelyBefore (t : IncidentTimeline) (time : ℕ) : Option TimelineEvent :=
  maxByKey (fun e ↦ (e.timestamp : ℤ)) (t.events.filter (fun e ↦ e.timestamp ≤ time))

def built (capacity : ℕ) (recorded : List TimelineEvent) : IncidentTimeline :=
  recorded.foldl record (new capacity)

/-- There is room for the event, or the oldest retained one is no later. -/
def Admits (t : IncidentTimeline) (event : TimelineEvent) : Prop :=
  t.events.length < t.capacity ∨ ∃ oldest rest, t.events = oldest :: rest ∧
    oldest.timestamp ≤ event.timestamp

end IncidentTimeline

def InOrder (events : List TimelineEvent) : Prop :=
  events.Pairwise (fun a b ↦ a.timestamp ≤ b.timestamp)

/-- As many of the recorded events as there is room for, and none of the others is later. -/
structure Newest (capacity : ℕ) (recorded kept : List TimelineEvent) : Prop where
  length_eq : kept.length = min capacity recorded.length
  split : ∃ dropped, recorded.Perm (kept ++ dropped) ∧
    ∀ d ∈ dropped, ∀ k ∈ kept, d.timestamp ≤ k.timestamp

/-- `e` is a latest one of the recorded events that are not after `time`. -/
structure LatestUntil (recorded : List TimelineEvent) (time : ℕ) (e : TimelineEvent) : Prop where
  mem : e ∈ recorded
  le : e.timestamp ≤ time
  latest : ∀ f ∈ recorded, f.timestamp ≤ time → f.timestamp ≤ e.timestamp

/-- The events stand in order, are the newest of the recorded ones, and tell what came immediately
before a time whenever that is among the newest. -/
structure Faithful (capacity : ℕ) (recorded : List TimelineEvent) (t : IncidentTimeline) :
    Prop where
  inOrder : InOrder t.events
  newest : Newest capacity recorded t.events
  before : ∀ time e, LatestUntil recorded time e →
    recorded.countP (fun f ↦ e.timestamp < f.timestamp) < capacity →
      ∃ f, t.immediatelyBefore time = some f ∧ LatestUntil recorded time f

open IncidentTimeline

variable {capacity : ℕ} {recorded kept events : List TimelineEvent} {event : TimelineEvent}
  {t : IncidentTimeline}

theorem inOrder_sort (events : List TimelineEvent) : InOrder (sortByTimestamp events) := by
  have : Std.Total (fun a b : TimelineEvent ↦ a.timestamp ≤ b.timestamp) :=
    ⟨fun a b ↦ Nat.le_total _ _⟩
  have : IsTrans TimelineEvent (fun a b ↦ a.timestamp ≤ b.timestamp) :=
    ⟨fun _ _ _ ↦ Nat.le_trans⟩
  exact List.pairwise_insertionSort _ events

theorem sort_perm (events : List TimelineEvent) : (sortByTimestamp events).Perm events :=
  List.perm_insertionSort _ events

theorem Newest.perm_of_room (h : Newest capacity recorded kept) (hroom : kept.length < capacity) :
    recorded.Perm kept := by
  obtain ⟨dropped, hperm, -⟩ := h.split
  exact perm_of_length_lt hperm h.length_eq hroom

theorem record_of_room (h : t.events.length < t.capacity) :
    (t.record event).events = sortByTimestamp (t.events ++ [event]) := by
  rw [IncidentTimeline.record, List.length_append, List.length_singleton, if_neg (by omega)]

theorem record_of_full {oldest : TimelineEvent} {rest : List TimelineEvent}
    (hevents : t.events = oldest :: rest) (h : t.capacity ≤ t.events.length) :
    (t.record event).events = sortByTimestamp (rest ++ [event]) := by
  rw [IncidentTimeline.record, List.length_append, List.length_singleton, if_pos (by omega),
    hevents, List.cons_append, List.tail_cons]

theorem capacity_built (capacity : ℕ) (recorded : List TimelineEvent) :
    (built capacity recorded).capacity = max capacity 1 := by
  induction recorded using List.reverseRecOn with
  | nil => rfl
  | append_singleton recorded event ih => rw [built, List.foldl_concat]; exact ih

theorem built_concat (capacity : ℕ) (recorded : List TimelineEvent) (event : TimelineEvent) :
    built capacity (recorded ++ [event]) = (built capacity recorded).record event :=
  List.foldl_concat _ _ _ _

theorem inOrder_built (capacity : ℕ) (recorded : List TimelineEvent) :
    InOrder (built capacity recorded).events := by
  induction recorded using List.reverseRecOn with
  | nil => exact .nil
  | append_singleton recorded event ih =>
    rw [built_concat]
    exact inOrder_sort _

theorem length_record (hpos : 0 < t.capacity) (hle : t.events.length ≤ t.capacity) :
    (t.record event).events.length = min t.capacity (t.events.length + 1) := by
  by_cases hroom : t.events.length < t.capacity
  · rw [record_of_room hroom, (sort_perm _).length_eq, List.length_append, List.length_singleton]
    omega
  · obtain ⟨oldest, rest, hevents⟩ := List.exists_cons_of_length_pos (l := t.events) (by omega)
    have hlength := congrArg List.length hevents
    rw [record_of_full hevents (by omega), (sort_perm _).length_eq, List.length_append,
      List.length_singleton]
    rw [List.length_cons] at hlength
    omega

/-- The newest events stay the newest ones if the new one finds room, or takes the place of one that
is no later. -/
theorem Newest.record (h : Newest t.capacity recorded t.events) (hpos : 0 < t.capacity)
    (horder : InOrder t.events) (hadmits : t.Admits event) :
    Newest t.capacity (recorded ++ [event]) (t.record event).events := by
  have hlength := h.length_eq
  refine ⟨?_, ?_⟩
  · rw [length_record hpos (by omega), List.length_append, List.length_singleton]
    omega
  · by_cases hroom : t.events.length < t.capacity
    · refine ⟨[], ?_, nofun⟩
      rw [record_of_room hroom, List.append_nil]
      exact ((h.perm_of_room hroom).append_right [event]).trans (sort_perm _).symm
    · obtain ⟨oldest, rest, hevents, hle⟩ := hadmits.resolve_left hroom
      obtain ⟨dropped, hperm, hearlier⟩ := h.split
      rw [record_of_full hevents (by omega)]
      rw [hevents] at hperm horder hearlier
      have hkept : ∀ k ∈ sortByTimestamp (rest ++ [event]), oldest.timestamp ≤ k.timestamp := by
        intro k hk
        rw [(sort_perm _).mem_iff, List.mem_append, List.mem_singleton] at hk
        rcases hk with hk | rfl
        · exact List.rel_of_pairwise_cons horder hk
        · exact hle
      refine ⟨oldest :: dropped, ?_, fun d hd k hk ↦ ?_⟩
      · refine (hperm.append_right [event]).trans ?_
        refine List.Perm.trans ?_ ((sort_perm _).symm.append_right _)
        rw [List.perm_iff_count]
        intro a
        simp only [List.count_append, List.count_cons, List.count_nil]
        omega
      · rcases List.mem_cons.mp hd with rfl | hd
        · exact hkept k hk
        · exact (hearlier d hd oldest List.mem_cons_self).trans (hkept k hk)

/-- An event earlier than all retained ones takes the place of one of the newest. -/
theorem Newest.admits (h : Newest t.capacity recorded t.events) (hpos : 0 < t.capacity)
    (hnext : Newest t.capacity (recorded ++ [event]) (t.record event).events) :
    t.Admits event := by
  by_contra hnot
  obtain ⟨hfull, hearly⟩ := not_or.mp hnot
  obtain ⟨oldest, rest, hevents⟩ := List.exists_cons_of_length_pos (l := t.events) (by omega)
  have holdest : event.timestamp < oldest.timestamp := by
    by_contra hle
    exact hearly ⟨oldest, rest, hevents, Nat.not_lt.mp hle⟩
  obtain ⟨dropped, hperm, -⟩ := h.split
  obtain ⟨dropped', hperm', hearlier'⟩ := hnext.split
  rw [record_of_full hevents (by omega)] at hperm' hearlier'
  -- the events later than the new one are counted
  let later (e : TimelineEvent) : Bool := event.timestamp < e.timestamp
  have hdropped : dropped'.countP later = 0 := by
    rw [List.countP_eq_zero]
    intro d hd
    have hd := hearlier' d hd event ((sort_perm _).mem_iff.mpr (by simp))
    simpa [later] using hd
  have hbefore := hperm.countP_eq later
  have hafter := hperm'.countP_eq later
  have hself : later event = false := by simp [later]
  have hfirst : later oldest = true := decide_eq_true holdest
  rw [hevents] at hbefore
  rw [List.countP_append, List.countP_append, (sort_perm _).countP_eq, List.countP_append,
    List.countP_singleton, hself, hdropped] at hafter
  rw [List.countP_append, List.countP_cons_of_pos hfirst] at hbefore
  simp only [Bool.false_eq_true, if_false] at hafter
  omega

/-- Fewer events than there is room for are later than one that is not retained, so one of its time
is. -/
theorem Newest.exists_same (h : Newest capacity recorded kept) (hevent : event ∈ recorded)
    (hcount : recorded.countP (fun f ↦ event.timestamp < f.timestamp) < capacity) :
    ∃ k ∈ kept, k.timestamp = event.timestamp := by
  obtain ⟨dropped, hperm, hearlier⟩ := h.split
  rcases List.mem_append.mp (hperm.mem_iff.mp hevent) with hkept | hdropped
  · exact ⟨event, hkept, rfl⟩
  · by_contra hnone
    have hall : kept.countP (fun f ↦ event.timestamp < f.timestamp) = kept.length := by
      rw [List.countP_eq_length]
      intro k hk
      have hle := hearlier event hdropped k hk
      exact decide_eq_true (lt_of_le_of_ne hle (fun heq ↦ hnone ⟨k, hk, heq.symm⟩))
    have hpos := List.length_pos_of_mem hdropped
    have hlength := h.length_eq
    have htotal := hperm.length_eq
    rw [hperm.countP_eq, List.countP_append, hall] at hcount
    rw [List.length_append] at htotal
    omega

theorem before_of_newest (h : Newest capacity recorded t.events) {time : ℕ} {e : TimelineEvent}
    (hlatest : LatestUntil recorded time e)
    (hcount : recorded.countP (fun f ↦ e.timestamp < f.timestamp) < capacity) :
    ∃ f, t.immediatelyBefore time = some f ∧ LatestUntil recorded time f := by
  obtain ⟨k, hk, hsame⟩ := h.exists_same hlatest.mem hcount
  obtain ⟨dropped, hperm, -⟩ := h.split
  have hcandidate : k ∈ t.events.filter (fun f ↦ f.timestamp ≤ time) :=
    List.mem_filter.mpr ⟨hk, decide_eq_true (hsame.trans_le hlatest.le)⟩
  obtain ⟨f, hf⟩ : ∃ f, t.immediatelyBefore time = some f :=
    exists_maxByKey (List.ne_nil_of_mem hcandidate)
  obtain ⟨hmem, hgreatest⟩ := maxByKey_spec hf
  obtain ⟨hmem, hle⟩ := List.mem_filter.mp hmem
  refine ⟨f, hf, hperm.mem_iff.mpr (List.mem_append_left _ hmem), of_decide_eq_true hle, ?_⟩
  intro g hg htime
  calc g.timestamp ≤ e.timestamp := hlatest.latest g hg htime
    _ = k.timestamp := hsame.symm
    _ ≤ f.timestamp := Int.ofNat_le.mp (hgreatest k hcandidate)

/-- A timeline is faithful all along exactly when no event comes to a full one that is earlier than
all it has retained. -/
theorem timeline_faithful_iff (capacity : ℕ) (recorded : List TimelineEvent) :
    (∀ before, before <+: recorded → Faithful (max capacity 1) before (built capacity before)) ↔
      ∀ before event, before ++ [event] <+: recorded → (built capacity before).Admits event := by
  have hpos : 0 < max capacity 1 := by omega
  have hcapacity := capacity_built capacity
  constructor
  · intro h before event hpre
    have hbefore := (h before ((List.prefix_append _ _).trans hpre)).newest
    have hnext := (h (before ++ [event]) hpre).newest
    rw [built_concat] at hnext
    rw [← hcapacity before] at hbefore hnext hpos
    exact hbefore.admits hpos hnext
  · intro h before hpre
    have hnewest : Newest (max capacity 1) before (built capacity before).events := by
      induction before using List.reverseRecOn with
      | nil => exact ⟨(Nat.min_zero _).symm, [], .refl _, nofun⟩
      | append_singleton before event ih =>
        have hbefore := ih ((List.prefix_append _ _).trans hpre)
        rw [built_concat]
        rw [← hcapacity before] at hbefore hpos ⊢
        exact hbefore.record hpos (inOrder_built capacity before) (h before event hpre)
    exact ⟨inOrder_built capacity before, hnewest, fun _ _ ↦ before_of_newest hnewest⟩

def deployment (timestamp : ℕ) : TimelineEvent := ⟨timestamp, .deployment, none, "srv-1", ""⟩

/-- With room for one, an event that arrives late takes the place of a newer one. -/
theorem late_event_evicts : ¬∀ before, before <+: [deployment 10, deployment 5] →
    Faithful 1 before (built 1 before) := by
  intro h
  have hlatest : LatestUntil [deployment 10, deployment 5] 10 (deployment 10) :=
    ⟨List.mem_cons_self, le_rfl, by decide⟩
  obtain ⟨f, hf, hnewest⟩ := (h _ List.prefix_rfl).before 10 _ hlatest (by decide)
  have hlost : (built 1 [deployment 10, deployment 5]).immediatelyBefore 10 =
      some (deployment 5) := by decide
  cases hf.symm.trans hlost
  exact absurd (hnewest.latest (deployment 10) List.mem_cons_self le_rfl) (by decide)

end Aldivine.Aegis.Timelines
