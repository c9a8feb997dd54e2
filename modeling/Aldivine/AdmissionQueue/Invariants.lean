import Aldivine.AdmissionQueue.Model
import Mathlib.Data.List.Nodup

namespace Aldivine.AdmissionQueue.Invariants

open Foundation.Locate Foundation.Text Model Model.Queue

/-- No id holds two places, and the playing slots are never oversold. -/
structure Sound (q : Queue) : Prop where
  ids_nodup : (q.playingIds ++ q.waitlistIds).Nodup
  playing_le : q.playing.length ≤ q.config.maxPlayers

variable {q : Queue} {id : String}

theorem sound_new (config : QueueConfig) : Sound (Queue.new config) :=
  ⟨by simp [playingIds, waitlistIds, Queue.new], by simp [Queue.new]⟩

theorem Sound.not_both (h : Sound q) {x : String} (hp : x ∈ q.playingIds) : x ∉ q.waitlistIds :=
  fun hw ↦ List.disjoint_of_nodup_append h.ids_nodup hp hw

theorem slotFreeFor_lt {holds : Bool} (h : q.slotFreeFor holds = true) :
    q.playing.length < q.config.maxPlayers := by
  cases holds <;> simp only [slotFreeFor, QueueConfig.openSlots] at h
  · have := of_decide_eq_true h
    omega
  · exact of_decide_eq_true h

theorem slotFreeFor_unreserved (hr : q.config.reservedSlots = 0) (holds : Bool) :
    q.slotFreeFor holds = decide (q.playing.length < q.config.maxPlayers) := by
  cases holds <;> simp [slotFreeFor, QueueConfig.openSlots, hr]

theorem join_sound (h : Sound q) (req : JoinRequest) (nowMs : UInt64) :
    Sound (q.join req nowMs).1 := by
  have hnodup := h.ids_nodup
  rcases join_cases q req nowMs with ⟨hadm, he⟩ | ⟨-, -, hp, hw, -, he⟩ | ⟨-, reason, he⟩
  · rw [he]
    refine ⟨?_, ?_⟩
    · have hperm : (q.playingIds ++ [req.id] ++ q.waitlistIds).Perm
          (req.id :: (q.playingIds ++ q.waitlistIds)) := by
        rw [List.append_assoc]
        exact List.perm_middle
      simp only [playingIds, waitlistIds, List.map_append, List.map_cons, List.map_nil] at *
      rw [hperm.nodup_iff, List.nodup_cons, List.mem_append]
      exact ⟨not_or.mpr ⟨hadm.2.1, hadm.2.2.1⟩, hnodup⟩
    · have := slotFreeFor_lt hadm.2.2.2
      simp only [List.length_append, List.length_singleton]
      omega
  · rw [he]
    refine ⟨?_, h.playing_le⟩
    simp only [playingIds, waitlistIds, List.map_append, List.map_cons, List.map_nil] at *
    rw [← List.append_assoc, List.nodup_append_comm, List.singleton_append, List.nodup_cons,
      List.mem_append]
    exact ⟨not_or.mpr ⟨hp, hw⟩, hnodup⟩
  · rw [he]
    exact h

theorem join_config (req : JoinRequest) (nowMs : UInt64) :
    (q.join req nowMs).1.config = q.config := by
  rcases join_cases q req nowMs with ⟨-, he⟩ | ⟨-, -, -, -, -, he⟩ | ⟨-, reason, he⟩ <;> rw [he]

theorem join_present {req : JoinRequest} (nowMs : UInt64) (hb : isBlank req.id = false)
    (hp : req.id ∈ q.playingIds ∨ req.id ∈ q.waitlistIds) :
    q.join req nowMs = (q, .rejected .alreadyPresent) := by
  have hpresent : (q.isPlaying req.id || q.isQueued req.id) = true := by simpa using hp
  simp [join, hb, hpresent]

structure Promoted (q q' : Queue) (out : Option String) : Prop where
  config : q'.config = q.config
  perm : (q'.playingIds ++ q'.waitlistIds).Perm (q.playingIds ++ q.waitlistIds)
  playing : ∀ x, x ∈ q'.playingIds ↔ x ∈ q.playingIds ∨ out = some x
  from_waitlist : ∀ x, out = some x → x ∈ q.waitlistIds
  fits : out ≠ none → q'.playing.length = q.playing.length + 1 ∧
    q.playing.length < q.config.maxPlayers
  idle : out = none → q' = q ∧ ∀ e ∈ q.waitlist, q.slotFreeFor e.holdsReservation = false

theorem promoteFrontFit_spec (q : Queue) :
    Promoted q q.promoteFrontFit.1 q.promoteFrontFit.2 := by
  cases hl : locate (fun e ↦ q.slotFreeFor e.holdsReservation) q.waitlist with
  | none =>
    have he : q.promoteFrontFit = (q, none) := by simp only [promoteFrontFit, hl]
    rw [he]
    exact ⟨rfl, .refl _, by simp, by simp, by simp, fun _ ↦ ⟨rfl, locate_eq_none.mp hl⟩⟩
  | some r =>
    have he : q.promoteFrontFit =
        ({ q with playing := q.playing ++ [r.found], waitlist := r.rest }, some r.found.id) := by
      simp only [promoteFrontFit, hl]
    have hmem := locate_mem hl
    have hperm := locate_perm hl
    rw [he]
    refine ⟨rfl, ?_, ?_, ?_, ?_, by simp⟩
    · have hids := (hperm.map (·.id)).append_left q.playingIds
      simp only [playingIds, waitlistIds, List.map_append, List.map_cons, List.map_nil,
        List.append_assoc] at hids ⊢
      exact hids.symm
    · intro x
      simp only [playingIds, List.map_append, List.mem_append, List.map_cons, List.map_nil,
        List.mem_singleton, Option.some.injEq]
      rw [eq_comm (a := x)]
    · intro x hx
      cases hx
      exact List.mem_map.mpr ⟨r.found, hmem, rfl⟩
    · intro _
      exact ⟨by simp, slotFreeFor_lt (locate_split hl).2.1⟩

theorem playingLeave_absent (h : id ∉ q.playingIds) : q.playingLeave id = (q, none) := by
  have hl : locate (·.id == id) q.playing = none := by
    rw [locate_eq_none]
    intro e he
    simpa using fun hid ↦ h (List.mem_map.mpr ⟨e, he, hid⟩)
  simp only [playingLeave, hl]

theorem playingLeave_present (h : id ∈ q.playingIds) :
    ∃ p : Queue, q.playingLeave id = p.promoteFrontFit ∧ p.config = q.config ∧
      p.waitlist = q.waitlist ∧ p.playing.length + 1 = q.playing.length ∧
      q.playingIds.Perm (id :: p.playingIds) := by
  cases hl : locate (·.id == id) q.playing with
  | none =>
    obtain ⟨e, he, hid⟩ := List.mem_map.mp h
    have := locate_eq_none.mp hl e he
    simp [hid] at this
  | some r =>
    refine ⟨{ q with playing := r.rest }, by simp only [playingLeave, hl], rfl, rfl,
      (locate_length hl).symm, ?_⟩
    have hid : r.found.id = id := by simpa using (locate_split hl).2.1
    have hperm := (locate_perm hl).map (·.id)
    rw [List.map_cons, hid] at hperm
    exact hperm

/-- What a leave did: the id gives up its playing slot, and the promoted id, if any, moves over. -/
structure Left (q q' : Queue) (id : String) (out : Option String) : Prop where
  sound : Sound q'
  config : q'.config = q.config
  playing : ∀ x, x ∈ q'.playingIds ↔ (x ∈ q.playingIds ∧ x ≠ id) ∨ out = some x
  waitlist : ∀ x, x ∈ q'.waitlistIds ↔ x ∈ q.waitlistIds ∧ out ≠ some x
  promoted : ∀ x, out = some x → x ∈ q.waitlistIds ∧ id ∈ q.playingIds

theorem playingLeave_spec (hq : Sound q) (id : String) :
    Left q (q.playingLeave id).1 id (q.playingLeave id).2 := by
  by_cases h : id ∈ q.playingIds
  · obtain ⟨p, he, hc, hw, hlen, hperm⟩ := playingLeave_present h
    have hwi : p.waitlistIds = q.waitlistIds := by simp only [waitlistIds, hw]
    have hnodup : (id :: (p.playingIds ++ p.waitlistIds)).Nodup := by
      rw [hwi, ← List.cons_append]
      exact (hperm.append_right _).nodup_iff.mp hq.ids_nodup
    have hmem : ∀ x, x ∈ p.playingIds ↔ x ∈ q.playingIds ∧ x ≠ id := by
      intro x
      have hid : id ∉ p.playingIds := fun hi ↦
        (List.nodup_cons.mp hnodup).1 (List.mem_append_left _ hi)
      rw [hperm.mem_iff, List.mem_cons]
      constructor
      · intro hx
        exact ⟨.inr hx, fun hxi ↦ hid (hxi ▸ hx)⟩
      · intro hcase
        rcases hcase with ⟨rfl | hx, hne⟩
        · exact absurd rfl hne
        · exact hx
    have hs := promoteFrontFit_spec p
    rw [he]
    have hnodup' := hs.perm.nodup_iff.mpr (List.nodup_cons.mp hnodup).2
    refine ⟨⟨hnodup', ?_⟩, hs.config.trans hc, ?_, ?_, ?_⟩
    · have hle := hq.playing_le
      rw [hs.config, hc]
      by_cases hout : p.promoteFrontFit.2 = none
      · rw [(hs.idle hout).1]
        omega
      · have := (hs.fits hout).1
        omega
    · intro x
      rw [hs.playing, hmem]
    · intro x
      rw [← hwi]
      have hx := hs.perm.mem_iff (a := x)
      have hd := List.disjoint_of_nodup_append hnodup' (a := x)
      have hd' := List.disjoint_of_nodup_append (List.nodup_cons.mp hnodup).2 (a := x)
      have hp := hs.playing x
      simp only [List.mem_append] at hx
      tauto
    · intro x hx
      exact ⟨hwi ▸ hs.from_waitlist x hx, h⟩
  · rw [playingLeave_absent h]
    refine ⟨hq, rfl, fun x ↦ ?_, by simp, by simp⟩
    constructor
    · exact fun hx ↦ .inl ⟨hx, fun hxi ↦ h (hxi ▸ hx)⟩
    · intro hcase
      rcases hcase with hx | hx
      · exact hx.1
      · cases hx

theorem playingLeave_promotes (hq : Sound q) (hr : q.config.reservedSlots = 0)
    (h : id ∈ q.playingIds) : (q.playingLeave id).2 = none ↔ q.waitlist = [] := by
  obtain ⟨p, he, hc, hw, hlen, -⟩ := playingLeave_present h
  have hs := promoteFrontFit_spec p
  rw [he]
  constructor
  · intro hout
    rw [← hw, List.eq_nil_iff_forall_not_mem]
    intro e hmem
    have hfree := (hs.idle hout).2 e hmem
    rw [slotFreeFor_unreserved (hc ▸ hr), hc] at hfree
    have hle := hq.playing_le
    have := of_decide_eq_false hfree
    omega
  · intro hnil
    by_contra hout
    obtain ⟨x, hx⟩ := Option.ne_none_iff_exists'.mp hout
    have := hs.from_waitlist x hx
    simp [waitlistIds, hw, hnil] at this

theorem queueLeave_spec (hq : Sound q) (id : String) :
    Sound (q.queueLeave id).1 ∧ (q.queueLeave id).1.config = q.config ∧
      (q.queueLeave id).1.playing = q.playing ∧
      ∀ x, x ∈ (q.queueLeave id).1.waitlistIds ↔ x ∈ q.waitlistIds ∧ x ≠ id := by
  cases hl : locate (·.id == id) q.waitlist with
  | none =>
    have he : q.queueLeave id = (q, false) := by simp only [queueLeave, hl]
    rw [he]
    refine ⟨hq, rfl, rfl, fun x ↦ ⟨fun hx ↦ ⟨hx, ?_⟩, And.left⟩⟩
    intro heq
    subst heq
    obtain ⟨e, hmem, hid⟩ := List.mem_map.mp hx
    have := locate_eq_none.mp hl e hmem
    simp [hid] at this
  | some r =>
    have he : q.queueLeave id = ({ q with waitlist := r.rest }, true) := by
      simp only [queueLeave, hl]
    have hid : r.found.id = id := by simpa using (locate_split hl).2.1
    have hperm := (locate_perm hl).map (·.id)
    rw [List.map_cons, hid] at hperm
    have hnodup := (hperm.append_left q.playingIds).nodup_iff.mp hq.ids_nodup
    rw [List.perm_middle.nodup_iff, List.nodup_cons, List.mem_append] at hnodup
    rw [he]
    refine ⟨⟨hnodup.2, hq.playing_le⟩, rfl, rfl, fun x ↦ ?_⟩
    have hx := hperm.mem_iff (a := x)
    rw [List.mem_cons] at hx
    have hnot : id ∉ r.rest.map (·.id) := fun h ↦ hnodup.1 (.inr h)
    simp only [waitlistIds]
    rw [hx]
    constructor
    · intro h
      exact ⟨.inr h, fun hxi ↦ hnot (hxi ▸ h)⟩
    · intro hcase
      rcases hcase with ⟨rfl | h, hne⟩
      · exact absurd rfl hne
      · exact h

end Aldivine.AdmissionQueue.Invariants
