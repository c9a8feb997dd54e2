import Aldivine.AdmissionQueue.Invariants
import Aldivine.Foundation.Execution
import Mathlib.Data.List.Infix

namespace Aldivine.AdmissionQueue.Order

open Foundation.Execution Foundation.Locate Foundation.Text Model Model.Queue Invariants

inductive Call
  | join (req : JoinRequest) (nowMs : UInt64)
  | playingLeave (id : String)
  | queueLeave (id : String)
  | expireStale (nowMs : UInt64)
deriving DecidableEq

inductive Answer
  | joined (outcome : JoinOutcome)
  | promoted (id : Option String)
  | left (was : Bool)
  | expired (ids : List String)
deriving DecidableEq

def step (q : Queue) : Call → Queue × Answer
  | .join req nowMs => ((q.join req nowMs).1, .joined (q.join req nowMs).2)
  | .playingLeave id => ((q.playingLeave id).1, .promoted (q.playingLeave id).2)
  | .queueLeave id => ((q.queueLeave id).1, .left (q.queueLeave id).2)
  | .expireStale nowMs => ((q.expireStale nowMs).1, .expired (q.expireStale nowMs).2)

inductive Change (q : Queue) : Queue → Prop
  | enter (e : QueuedEntry) (hnew : e.id ∉ q.waitlistIds)
      (hfree : q.slotFreeFor e.holdsReservation = true) :
      Change q { q with playing := q.playing ++ [e] }
  | enqueue (e : QueuedEntry) (hnew : e.id ∉ q.waitlistIds)
      (hfull : q.slotFreeFor e.holdsReservation = false)
      (hroom : q.waitlist.length < q.config.maxQueueLen) :
      Change q { q with waitlist := q.waitlist ++ [e] }
  | leave (playing : List QueuedEntry) (hsub : playing.Sublist q.playing)
      (hidle : ∀ e ∈ q.waitlist,
        { q with playing := playing }.slotFreeFor e.holdsReservation = false) :
      Change q { q with playing := playing }
  | promote (playing : List QueuedEntry) (r : Located QueuedEntry)
      (hsub : playing.Sublist q.playing) (hlen : q.playing.length = playing.length + 1)
      (hfit : locate (fun e ↦ { q with playing := playing }.slotFreeFor e.holdsReservation)
        q.waitlist = some r) :
      Change q { q with playing := playing ++ [r.found], waitlist := r.rest }
  | drop (waitlist : List QueuedEntry) (hsub : waitlist.Sublist q.waitlist) :
      Change q { q with waitlist := waitlist }

variable {q q' : Queue}

theorem rest_sublist {p : QueuedEntry → Bool} {l : List QueuedEntry} {r : Located QueuedEntry}
    (h : locate p l = some r) : r.rest.Sublist l := by
  rw [(locate_split h).1]
  exact (List.Sublist.refl _).append (List.sublist_cons_self _ _)

theorem Change.same : Change q q := .drop q.waitlist (List.Sublist.refl _)

theorem join_change (req : JoinRequest) (nowMs : UInt64) : Change q (q.join req nowMs).1 := by
  rcases join_cases q req nowMs with
    ⟨hadm, he⟩ | ⟨hnot, hblank, hplaying, hwaiting, hroom, he⟩ | ⟨-, reason, he⟩
  · rw [he]
    exact .enter ⟨req.id, req.holdsReservation, nowMs⟩ hadm.2.2.1 hadm.2.2.2
  · rw [he]
    have hfull : q.slotFreeFor req.holdsReservation = false := by
      rw [← Bool.not_eq_true]
      exact fun hfree ↦ hnot ⟨hblank, hplaying, hwaiting, hfree⟩
    exact .enqueue ⟨req.id, req.holdsReservation, nowMs⟩ hwaiting hfull hroom
  · rw [he]
    exact .same

theorem playingLeave_change (id : String) : Change q (q.playingLeave id).1 := by
  unfold playingLeave
  cases hl : locate (·.id == id) q.playing with
  | none => exact .same
  | some r =>
    have hsub := rest_sublist hl
    simp only [promoteFrontFit]
    cases hfit : locate (fun e ↦ { q with playing := r.rest }.slotFreeFor e.holdsReservation)
        q.waitlist with
    | none => exact .leave r.rest hsub (locate_eq_none.mp hfit)
    | some r' => exact .promote r.rest r' hsub (locate_length hl) hfit

theorem queueLeave_change (id : String) : Change q (q.queueLeave id).1 := by
  unfold queueLeave
  cases hl : locate (·.id == id) q.waitlist with
  | none => exact .same
  | some r => exact .drop r.rest (rest_sublist hl)

theorem expireStale_change (nowMs : UInt64) : Change q (q.expireStale nowMs).1 := by
  unfold expireStale
  split
  · exact .same
  · exact .drop _ List.filter_sublist

theorem step_change (call : Call) : Change q (step q call).1 := by
  cases call with
  | join req nowMs => exact join_change req nowMs
  | playingLeave id => exact playingLeave_change id
  | queueLeave id => exact queueLeave_change id
  | expireStale nowMs => exact expireStale_change nowMs

theorem Change.config (h : Change q q') : q'.config = q.config := by
  cases h <;> rfl

theorem expireStale_sound (hq : Sound q) (nowMs : UInt64) : Sound (q.expireStale nowMs).1 := by
  unfold expireStale
  split
  · exact hq
  · refine ⟨?_, hq.playing_le⟩
    exact hq.ids_nodup.sublist ((List.Sublist.refl _).append (List.filter_sublist.map _))

theorem step_sound (hq : Sound q) (call : Call) : Sound (step q call).1 := by
  cases call with
  | join req nowMs => exact join_sound hq req nowMs
  | playingLeave id => exact (playingLeave_spec hq id).sound
  | queueLeave id => exact (queueLeave_spec hq id).1
  | expireStale nowMs => exact expireStale_sound hq nowMs

theorem run_sound (hq : Sound q) (calls : List Call) : Sound (run step q calls) :=
  invariant_all (I := Sound) (fun _ call h ↦ step_sound h call) hq calls

section Slots

def slotsFor (c : QueueConfig) (holdsReservation : Bool) : ℕ :=
  if holdsReservation then c.maxPlayers else c.openSlots

theorem slotFreeFor_iff {holds : Bool} :
    q.slotFreeFor holds = true ↔ q.playing.length < slotsFor q.config holds := by
  cases holds <;> simp [slotFreeFor, slotsFor]

theorem slotFreeFor_eq_false {holds : Bool} :
    q.slotFreeFor holds = false ↔ slotsFor q.config holds ≤ q.playing.length := by
  rw [← Bool.not_eq_true, slotFreeFor_iff, Nat.not_lt]

def nonHolders (l : List QueuedEntry) : List QueuedEntry := l.filter (fun e ↦ !e.holdsReservation)

/-- The slots are shared out by the rules, and nobody waits for a slot that is free. -/
structure Settled (q : Queue) : Prop where
  open_le : (nonHolders q.playing).length ≤ q.config.openSlots
  waitlist_le : q.waitlist.length ≤ q.config.maxQueueLen
  nobody_fits : ∀ e ∈ q.waitlist, q.slotFreeFor e.holdsReservation = false

theorem settled_new (config : QueueConfig) : Settled (Queue.new config) where
  open_le := Nat.zero_le _
  waitlist_le := Nat.zero_le _
  nobody_fits := fun _ he ↦ by cases he

theorem length_nonHolders_sublist {l l' : List QueuedEntry} (h : l'.Sublist l) :
    (nonHolders l').length ≤ (nonHolders l).length := (h.filter _).length_le

theorem length_nonHolders_concat {l : List QueuedEntry} {e : QueuedEntry} {c : QueueConfig}
    (hle : (nonHolders l).length ≤ c.openSlots)
    (hfree : l.length < slotsFor c e.holdsReservation) :
    (nonHolders (l ++ [e])).length ≤ c.openSlots := by
  have hall : (nonHolders l).length ≤ l.length := List.length_filter_le _ _
  cases he : e.holdsReservation with
  | true => simpa [nonHolders, he] using hle
  | false =>
    simp only [slotsFor, he, Bool.false_eq_true, if_false] at hfree
    simp only [nonHolders, List.filter_append, List.length_append] at hall ⊢
    simp only [he, List.filter_cons, List.filter_nil, Bool.not_false, if_true,
      List.length_singleton]
    omega

theorem Change.settled (h : Change q q') (hq : Settled q) : Settled q' := by
  have hfits := hq.nobody_fits
  simp only [slotFreeFor_eq_false] at hfits
  cases h with
  | enter e hnew hfree =>
    refine ⟨length_nonHolders_concat hq.open_le (slotFreeFor_iff.mp hfree), hq.waitlist_le, ?_⟩
    intro w hw
    have hw' := hfits w hw
    rw [slotFreeFor_eq_false, List.length_append]
    exact Nat.le_add_right_of_le hw'
  | enqueue e hnew hfull hroom =>
    refine ⟨hq.open_le, by rw [List.length_append]; exact hroom, ?_⟩
    intro w hw
    rcases List.mem_append.mp hw with hw | hw
    · exact hq.nobody_fits w hw
    · rw [List.mem_singleton.mp hw]
      exact hfull
  | leave playing hsub hidle =>
    exact ⟨(length_nonHolders_sublist hsub).trans hq.open_le, hq.waitlist_le, hidle⟩
  | promote playing r hsub hlen hfit =>
    have hfree := slotFreeFor_iff.mp (locate_split hfit).2.1
    have hrest := rest_sublist hfit
    refine ⟨?_, hrest.length_le.trans hq.waitlist_le, ?_⟩
    · exact length_nonHolders_concat ((length_nonHolders_sublist hsub).trans hq.open_le) hfree
    · -- one slot was freed and one taken, so whoever waited in vain still does
      intro w hw
      have hw' := hfits w (hrest.subset hw)
      rw [slotFreeFor_eq_false, List.length_append, List.length_singleton, ← hlen]
      exact hw'
  | drop waitlist hsub =>
    exact ⟨hq.open_le, hsub.length_le.trans hq.waitlist_le,
      fun w hw ↦ hq.nobody_fits w (hsub.subset hw)⟩

end Slots

section Overtaking

variable {a b : String}

/-- `a` and `b` wait with the same claim to a slot, and `a` is in front. -/
def Behind (q : Queue) (a b : String) : Prop :=
  ∃ e f, Precedes q.waitlist e f ∧ e.id = a ∧ f.id = b ∧ e.holdsReservation = f.holdsReservation

theorem waitlist_nodup (hq : Sound q) : q.waitlist.Nodup :=
  (List.Nodup.of_append_right hq.ids_nodup).of_map _

theorem eq_of_waits (hq : Sound q) {e f : QueuedEntry} (he : e ∈ q.waitlist) (hf : f ∈ q.waitlist)
    (hid : e.id = f.id) : e = f :=
  List.inj_on_of_nodup_map (List.Nodup.of_append_right hq.ids_nodup) he hf hid

theorem mem_of_still_waits (hq : Sound q) {waitlist : List QueuedEntry} {e : QueuedEntry}
    (hsub : waitlist.Sublist q.waitlist) (he : e ∈ q.waitlist) (hid : e.id ∈ waitlist.map (·.id)) :
    e ∈ waitlist := by
  obtain ⟨e', he', heq⟩ := List.mem_map.mp hid
  rwa [eq_of_waits hq he (hsub.subset he') heq.symm]

/-- While both stay, the one behind stays behind. -/
theorem Change.behind (h : Change q q') (hq : Sound q) (hab : Behind q a b)
    (ha : a ∈ q'.waitlistIds) (hb : b ∈ q'.playingIds ∨ b ∈ q'.waitlistIds) : Behind q' a b := by
  obtain ⟨e, f, hpre, rfl, rfl, hsame⟩ := hab
  have he : e ∈ q.waitlist := hpre.subset List.mem_cons_self
  have hf : f ∈ q.waitlist := hpre.mem_right
  have hnot : f.id ∉ q.playingIds := fun hp ↦ hq.not_both hp (List.mem_map_of_mem hf)
  cases h with
  | enter | leave => exact ⟨e, f, hpre, rfl, rfl, hsame⟩
  | enqueue x => exact ⟨e, f, hpre.append [x], rfl, rfl, hsame⟩
  | promote playing r hsub hlen hfit =>
    have hrest := rest_sublist hfit
    have he' := mem_of_still_waits hq hrest he ha
    refine ⟨e, f, hpre.keep hrest (waitlist_nodup hq) he' ?_, rfl, rfl, hsame⟩
    rcases hb with hb | hb
    · -- had the slot gone to `f`, it would have gone to `e`, which comes first and fits as well
      simp only [playingIds, List.map_append, List.map_cons, List.map_nil, List.mem_append,
        List.mem_singleton] at hb
      rcases hb with hb | hb
      · exact absurd ((hsub.map _).subset hb) hnot
      · obtain rfl := eq_of_waits hq hf (locate_mem hfit) hb
        have hfirst := locate_first hfit (waitlist_nodup hq) hpre
        rw [hsame, (locate_split hfit).2.1] at hfirst
        cases hfirst
    · exact mem_of_still_waits hq hrest hf hb
  | drop waitlist hsub =>
    have he' := mem_of_still_waits hq hsub he ha
    have hf' := mem_of_still_waits hq hsub hf (hb.resolve_left hnot)
    exact ⟨e, f, hpre.keep hsub (waitlist_nodup hq) he' hf', rfl, rfl, hsame⟩

/-- Whoever gets in behind somebody with the same claim who waits, waits behind them. -/
theorem behind_of_join {e : QueuedEntry} {req : JoinRequest} {nowMs : UInt64} (hq : Settled q)
    (he : e ∈ q.waitlist) (hsame : req.holdsReservation = e.holdsReservation)
    (hjoined : ∀ reason, (q.join req nowMs).2 ≠ .rejected reason) :
    Behind (q.join req nowMs).1 e.id req.id := by
  rcases join_cases q req nowMs with ⟨hadm, -⟩ | ⟨-, -, -, -, -, heq⟩ | ⟨-, reason, heq⟩
  · have hfull := hq.nobody_fits e he
    rw [← hsame, hadm.2.2.2] at hfull
    cases hfull
  · rw [heq]
    exact ⟨e, ⟨req.id, req.holdsReservation, nowMs⟩, precedes_concat he, rfl, rfl, hsame.symm⟩
  · exact absurd (congrArg Prod.snd heq) (hjoined reason)

theorem behind_run (hq : Sound q) (hab : Behind q a b) (calls : List Call)
    (hstay : ∀ before, before <+: calls → a ∈ (run step q before).waitlistIds ∧
      (b ∈ (run step q before).playingIds ∨ b ∈ (run step q before).waitlistIds)) :
    Behind (run step q calls) a b := by
  induction calls generalizing q with
  | nil => exact hab
  | cons call calls ih =>
    have hnow := hstay [call] (List.prefix_append [call] calls)
    refine ih (step_sound hq call) ((step_change call).behind hq hab hnow.1 hnow.2) ?_
    intro before hpre
    exact hstay (call :: before) (List.cons_prefix_cons.mpr ⟨rfl, hpre⟩)

theorem not_playing_of_behind (hq : Sound q) (hab : Behind q a b) : b ∉ q.playingIds := by
  obtain ⟨e, f, hpre, -, rfl, -⟩ := hab
  exact fun hp ↦ hq.not_both hp (List.mem_map_of_mem hpre.mem_right)

end Overtaking

theorem run_sound_settled (config : QueueConfig) (calls : List Call) :
    Sound (run step (Queue.new config) calls) ∧ Settled (run step (Queue.new config) calls) ∧
      (run step (Queue.new config) calls).config = config := by
  refine invariant_all (I := fun q ↦ Sound q ∧ Settled q ∧ q.config = config) ?_
    ⟨sound_new config, settled_new config, rfl⟩ calls
  intro q call hq
  have hchange : Change q (step q call).1 := step_change call
  exact ⟨step_sound hq.1 call, hchange.settled hq.2.1, hchange.config.trans hq.2.2⟩

/-- Over every run: nobody holds two places, no list outgrows its bound, nobody waits for a free
slot, and nobody is let in before another with the same claim who has been waiting for longer. -/
theorem queue_in_order (maxPlayers reservedSlots maxQueueLen : ℕ) (staleAfterMs : UInt64)
    (config : QueueConfig)
    (hconfig : QueueConfig.new maxPlayers reservedSlots maxQueueLen staleAfterMs = .ok config)
    (calls : List Call) (q : Queue) (hq : q = run step (Queue.new config) calls) :
    (q.playingIds ++ q.waitlistIds).Nodup ∧
    q.playing.length ≤ maxPlayers ∧
    (q.playing.filter (fun e ↦ !e.holdsReservation)).length ≤ maxPlayers - reservedSlots ∧
    q.waitlist.length ≤ maxQueueLen ∧
    (∀ e ∈ q.waitlist, q.slotFreeFor e.holdsReservation = false) ∧
    ∀ e ∈ q.waitlist, ∀ req nowMs, req.holdsReservation = e.holdsReservation →
      (∀ reason, (q.join req nowMs).2 ≠ .rejected reason) →
      ∀ later, (∀ between, between <+: later →
          e.id ∈ (run step (q.join req nowMs).1 between).waitlistIds ∧
          (req.id ∈ (run step (q.join req nowMs).1 between).playingIds ∨
            req.id ∈ (run step (q.join req nowMs).1 between).waitlistIds)) →
        req.id ∉ (run step (q.join req nowMs).1 later).playingIds := by
  obtain ⟨hsound, hsettled, hsame⟩ := run_sound_settled config calls
  rw [← hq] at hsound hsettled hsame
  have hnumbers : config = ⟨maxPlayers, reservedSlots, maxQueueLen, staleAfterMs⟩ := by
    unfold QueueConfig.new at hconfig
    split at hconfig
    · cases hconfig
    · exact (Except.ok.inj hconfig).symm
  have hplaying := hsound.playing_le
  have hopen := hsettled.open_le
  have hwaitlist := hsettled.waitlist_le
  rw [hsame, hnumbers] at hplaying hopen hwaitlist
  refine ⟨hsound.ids_nodup, hplaying, hopen, hwaitlist, hsettled.nobody_fits, ?_⟩
  intro e he req nowMs hclaim hjoined later hstay
  have hbehind := behind_of_join hsettled he hclaim hjoined
  have hjoin : Sound (q.join req nowMs).1 := join_sound hsound req nowMs
  exact not_playing_of_behind (run_sound hjoin later) (behind_run hjoin hbehind later hstay)

/-- One slot, taken by `a`; `b` and `c` wait. -/
def oneSlot : Queue :=
  run step (Queue.new ⟨1, 0, 3, 0⟩)
    [.join ⟨"a", false⟩ 0, .join ⟨"b", false⟩ 1, .join ⟨"c", false⟩ 2]

/-- `d` joins while `c` waits, then `b` is let in. -/
theorem oneSlot_in_order :
    (QueueConfig.new 1 0 3 0 = .ok ⟨1, 0, 3, 0⟩ ∧
        oneSlot.waitlist = [⟨"b", false, 1⟩, ⟨"c", false, 2⟩]) ∧
      oneSlot.playing.length ≤ 1 ∧
      "d" ∉ (run step (oneSlot.join ⟨"d", false⟩ 3).1
        [.playingLeave "a", .expireStale 4, .join ⟨"a", false⟩ 5]).playingIds := by
  obtain ⟨-, hplaying, -, -, -, hlater⟩ := queue_in_order 1 0 3 0 ⟨1, 0, 3, 0⟩ rfl _ oneSlot rfl
  refine ⟨⟨rfl, by decide⟩, hplaying, ?_⟩
  have hqueued : (oneSlot.join ⟨"d", false⟩ 3).2 = .queued 3 := by decide
  refine hlater ⟨"c", false, 2⟩ (by decide) ⟨"d", false⟩ 3 rfl (fun _ ↦ by simp [hqueued]) _ ?_
  intro between hpre
  have hstay : ∀ between ∈ List.inits [.playingLeave "a", .expireStale 4, .join ⟨"a", false⟩ 5],
      "c" ∈ (run step (oneSlot.join ⟨"d", false⟩ 3).1 between).waitlistIds ∧
      ("d" ∈ (run step (oneSlot.join ⟨"d", false⟩ 3).1 between).playingIds ∨
        "d" ∈ (run step (oneSlot.join ⟨"d", false⟩ 3).1 between).waitlistIds) := by
    decide
  exact hstay between ((List.mem_inits _ _).mpr hpre)

end Aldivine.AdmissionQueue.Order
