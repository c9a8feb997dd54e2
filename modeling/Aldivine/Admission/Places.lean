import Aldivine.Admission.Moves
import Aldivine.Foundation.Execution
import Aldivine.Foundation.Holders
import Mathlib.Data.List.Perm.Subperm

namespace Aldivine.Admission.Places

open Foundation.Text Foundation.Execution Foundation.Holders Core.PlayerId Identity.Policy
open AdmissionQueue.Model AdmissionQueue.Invariants Handshake Manager Manager.AdmissionManager Moves

variable {Peer : Type} [DecidableEq Peer]

def ReadyAs (m : AdmissionManager Peer) (p : Peer) (id : String) : Prop :=
  ∃ s, m.session p = some s ∧ s.state = .ready ∧ s.aldivineId = some id

def Carries (m : AdmissionManager Peer) (p : Peer) (id : String) : Prop :=
  ∃ s, m.session p = some s ∧ s.aldivineId = some id

def readyEntries (m : AdmissionManager Peer) : List (Σ _ : Peer, AdmissionSession) :=
  m.sessions.entries.filter (fun e ↦ e.2.state = .ready)

/-- The session table and the queue agree: playing ids and ready sessions are in bijection, no more
sessions are ready than there are slots, and every place belongs to an id that a session carries. -/
structure InStep (m : AdmissionManager Peer) : Prop where
  playing_nodup : m.queue.playingIds.Nodup
  holder : ∀ id ∈ m.queue.playingIds, ∃! p, ReadyAs m p id
  ready_playing : ∀ p s, m.session p = some s → s.state = .ready →
    ∃ id ∈ m.queue.playingIds, s.aldivineId = some id
  ready_le : (readyEntries m).length ≤ m.maxPlayers.toNat
  carried : ∀ id, id ∈ m.queue.playingIds ∨ id ∈ m.queue.waitlistIds → ∃ p, Carries m p id

structure WellFormed (m : AdmissionManager Peer) : Prop where
  sound : Sound m.queue
  slots : m.queue.config.maxPlayers = m.maxPlayers.toNat
  unreserved : m.queue.config.reservedSlots = 0
  fresh : ∀ p s, m.session p = some s → s.state = .waitingAuth → s.aldivineId = none
  known : ∀ p s, m.session p = some s → s.state = .ready → ∃ id, s.aldivineId = some id

variable {m m' : AdmissionManager Peer} {p : Peer}

abbrev StoresMatch (m : AdmissionManager Peer) : Prop :=
  Matched (ReadyAs m) (Carries m) (· ∈ m.queue.playingIds) (· ∈ m.queue.waitlistIds)

theorem readyAs_carries {id : String} (h : ReadyAs m p id) : Carries m p id :=
  h.imp (fun _ hs ↦ ⟨hs.1, hs.2.2⟩)

theorem carries_unique {a b : String} (ha : Carries m p a) (hb : Carries m p b) : a = b := by
  obtain ⟨s, hs, ha⟩ := ha
  obtain ⟨t, ht, hb⟩ := hb
  obtain rfl := Option.some.inj (hs.symm.trans ht)
  exact Option.some.inj (ha.symm.trans hb)

theorem mem_readyEntries {e : Σ _ : Peer, AdmissionSession} :
    e ∈ readyEntries m ↔ m.session e.1 = some e.2 ∧ e.2.state = .ready := by
  rw [readyEntries, List.mem_filter, decide_eq_true_iff, session, ← Option.mem_def,
    AList.mem_lookup_iff]

theorem readyEntries_length_le (hm : StoresMatch m) (hw : WellFormed m) :
    (readyEntries m).length ≤ m.queue.playing.length := by
  let idOf (e : Σ _ : Peer, AdmissionSession) : String := e.2.aldivineId.getD ""
  have hready (e : Σ _ : Peer, AdmissionSession) (he : e ∈ readyEntries m) :
      ReadyAs m e.1 (idOf e) := by
    obtain ⟨hs, hr⟩ := mem_readyEntries.mp he
    obtain ⟨id, hid⟩ := hw.known e.1 e.2 hs hr
    exact ⟨e.2, hs, hr, by simp [idOf, hid]⟩
  have hinj : ∀ a ∈ readyEntries m, ∀ b ∈ readyEntries m, idOf a = idOf b → a = b := by
    intro a ha b hb he
    have hra := hready a ha
    have hrb := hready b hb
    rw [he] at hra
    have hp := (hm.holder (idOf b) (hm.playing_of_ready b.1 (idOf b) hrb)).unique hra hrb
    rcases a with ⟨p, s⟩
    rcases b with ⟨q, t⟩
    dsimp only at hp
    subst hp
    obtain rfl := Option.some.inj ((mem_readyEntries.mp ha).1.symm.trans (mem_readyEntries.mp hb).1)
    rfl
  have hnodup : ((readyEntries m).map idOf).Nodup :=
    List.Nodup.map_on (fun a ha b hb ↦ hinj a ha b hb)
      ((List.NodupKeys.nodup m.sessions.nodupKeys).filter _)
  have hsub : (readyEntries m).map idOf ⊆ m.queue.playingIds := by
    intro id hid
    obtain ⟨e, he, rfl⟩ := List.mem_map.mp hid
    exact hm.playing_of_ready e.1 (idOf e) (hready e he)
  simpa [Queue.playingIds] using (hnodup.subperm hsub).length_le

theorem inStep_iff (hw : WellFormed m) : InStep m ↔ StoresMatch m := by
  constructor
  · intro h
    refine ⟨h.holder, ?_, h.carried⟩
    rintro p id ⟨s, hs, hr, hid⟩
    obtain ⟨id', hmem, hid'⟩ := h.ready_playing p s hs hr
    rwa [← Option.some.inj (hid'.symm.trans hid)]
  · intro h
    refine ⟨(List.nodup_append.mp hw.sound.ids_nodup).1, h.holder, ?_, ?_, h.carried⟩
    · intro p s hs hr
      obtain ⟨id, hid⟩ := hw.known p s hs hr
      exact ⟨id, h.playing_of_ready p id ⟨s, hs, hr, hid⟩, hid⟩
    · exact (readyEntries_length_le h hw).trans (hw.slots ▸ hw.sound.playing_le)

def carriedElsewhere (m : AdmissionManager Peer) (p : Peer) (id : String) : Bool :=
  m.sessions.entries.any (fun e ↦ e.1 ≠ p ∧ e.2.aldivineId = some id)

theorem carriedElsewhere_iff {id : String} :
    carriedElsewhere m p id = true ↔ ∃ q, q ≠ p ∧ Carries m q id := by
  simp only [carriedElsewhere, List.any_eq_true, decide_eq_true_eq]
  constructor
  · intro hparts
    obtain ⟨⟨q, s⟩, hmem, hq, hid⟩ := hparts
    exact ⟨q, hq, s, AList.mem_lookup_iff.mpr hmem, hid⟩
  · intro hparts
    obtain ⟨q, hq, s, hs, hid⟩ := hparts
    exact ⟨⟨q, s⟩, AList.mem_lookup_iff.mp hs, hq, hid⟩

/-- The call leaves the two stores in step: a re-hello does not abandon a slot or the last claim to
a waitlist place, no identity response reaches a ready session, and a leaving session gives up a
playing slot only if the slot is its own and nobody waits. -/
def KeepsPlaces (m : AdmissionManager Peer) (op : Op Peer) : Prop :=
  (∀ p ∈ op.helloPeer, m.stateOf p ≠ some .ready ∧ ∀ id ∈ m.aldivineIdOf p,
    id ∈ m.queue.waitlistIds → carriedElsewhere m p id = true) ∧
  (∀ p ∈ op.identityPeer, m.stateOf p ≠ some .ready) ∧
  (∀ p ∈ op.removedPeer, ∀ id ∈ m.aldivineIdOf p, id ∈ m.queue.playingIds →
    m.stateOf p = some .ready ∧ m.queue.waitlist = [])

instance (m : AdmissionManager Peer) (op : Op Peer) : Decidable (KeepsPlaces m op) :=
  inferInstanceAs (Decidable (_ ∧ _ ∧ _))

theorem not_ready_iff (hw : WellFormed m) :
    m.stateOf p ≠ some .ready ↔ ∀ id, ¬ReadyAs m p id := by
  constructor
  · rintro h id ⟨s, hs, hr, -⟩
    exact h (by simp [stateOf, hs, hr])
  · intro h hr
    obtain ⟨s, hs, hstate⟩ := Option.map_eq_some_iff.mp hr
    obtain ⟨id, hid⟩ := hw.known p s hs hstate
    exact h id ⟨s, hs, hstate, hid⟩

theorem mem_aldivineIdOf {id : String} : id ∈ m.aldivineIdOf p ↔ Carries m p id := by
  simp [aldivineIdOf, Carries, Option.bind_eq_some_iff]

section Update

variable (hne : ∀ q, q ≠ p → m'.session q = m.session q)

include hne

theorem readyAs_drop (hnew : ∀ s, m'.session p = some s → s.state ≠ .ready) (q : Peer)
    (id : String) : ReadyAs m' q id ↔ q ≠ p ∧ ReadyAs m q id := by
  by_cases hq : q = p
  · subst hq
    simp only [ne_eq, not_true, false_and, iff_false]
    intro hparts
    obtain ⟨s, hs, hr, -⟩ := hparts
    exact hnew s hs hr
  · simp only [ReadyAs, hne q hq, ne_eq, hq, not_false_iff, true_and]

theorem carries_keep (hid : m'.aldivineIdOf p = m.aldivineIdOf p) (q : Peer) (id : String) :
    Carries m' q id ↔ Carries m q id := by
  by_cases hq : q = p
  · subst hq
    rw [← mem_aldivineIdOf, ← mem_aldivineIdOf, hid]
  · simp only [Carries, hne q hq]

theorem storesMatch_quiet (hm : StoresMatch m) (hold : ∀ id, ¬ReadyAs m p id)
    (hnew : ∀ s, m'.session p = some s → s.state ≠ .ready)
    (hplaying : m'.queue.playingIds = m.queue.playingIds)
    (hcarried : ∀ id, id ∈ m.queue.playingIds ∨ id ∈ m'.queue.waitlistIds →
      ∃ q, Carries m' q id) : StoresMatch m' := by
  rw [StoresMatch, hplaying]
  exact (hm.drop_iff (readyAs_drop hne hnew)).mpr ⟨hold, hcarried⟩

theorem WellFormed.update (hw : WellFormed m) (hsound : Sound m'.queue)
    (hconfig : m'.queue.config = m.queue.config) (hmax : m'.maxPlayers = m.maxPlayers)
    (hfresh : ∀ s, m'.session p = some s → s.state = .waitingAuth → s.aldivineId = none)
    (hknown : ∀ s, m'.session p = some s → s.state = .ready → ∃ id, s.aldivineId = some id) :
    WellFormed m' where
  sound := hsound
  slots := by rw [hconfig, hmax, hw.slots]
  unreserved := by rw [hconfig, hw.unreserved]
  fresh q s hs := by
    by_cases hq : q = p
    · subst hq
      exact hfresh s hs
    · exact hw.fresh q s (hne q hq ▸ hs)
  known q s hs := by
    by_cases hq : q = p
    · subst hq
      exact hknown s hs
    · exact hw.known q s (hne q hq ▸ hs)

end Update

theorem setState_aldivineIdOf (a : HandshakeState) :
    (m.setState p a).aldivineIdOf p = m.aldivineIdOf p := by
  rw [aldivineIdOf, setState, session_updateSession_self, aldivineIdOf]
  cases m.session p <;> rfl

theorem state_of_setState {a : HandshakeState} {s : AdmissionSession}
    (hs : (m.setState p a).session p = some s) : s.state = a := by
  rw [setState, session_updateSession_self] at hs
  obtain ⟨t, -, rfl⟩ := Option.map_eq_some_iff.mp hs
  rfl

theorem wellFormed_setState (hw : WellFormed m) {a : HandshakeState} (hr : a ≠ .ready)
    (ha : a ≠ .waitingAuth) : WellFormed (m.setState p a) := by
  refine hw.update (p := p) (fun q hq ↦ session_setState_ne a hq)
    (by rw [setState_queue]; exact hw.sound) (by rw [setState_queue])
    (setState_maxPlayers (m := m) (p := p) a) ?_ ?_
  · intro s hs hstate
    exact absurd ((state_of_setState hs).symm.trans hstate) ha
  · intro s hs hstate
    exact absurd ((state_of_setState hs).symm.trans hstate) hr

theorem storesMatch_setState_iff (hw : WellFormed m) (hm : StoresMatch m) {a : HandshakeState}
    (hr : a ≠ .ready) : StoresMatch (m.setState p a) ↔ m.stateOf p ≠ some .ready := by
  have hne : ∀ q, q ≠ p → (m.setState p a).session q = m.session q :=
    fun q hq ↦ session_setState_ne a hq
  have hnew : ∀ s, (m.setState p a).session p = some s → s.state ≠ .ready :=
    fun s hs ↦ state_of_setState hs ▸ hr
  rw [StoresMatch, setState_queue, hm.drop_iff (readyAs_drop hne hnew), not_ready_iff hw]
  refine and_iff_left (fun id hid ↦ (hm.carried id hid).imp (fun q hq ↦ ?_))
  exact (carries_keep hne (setState_aldivineIdOf a) q id).mpr hq

theorem keepsPlaces_of_quiet {op : Op Peer} (hhello : op.helloPeer = none)
    (hid : op.identityPeer = none) (hremove : op.removedPeer = none) : KeepsPlaces m op := by
  simp [KeepsPlaces, hhello, hid, hremove]

theorem keepsPlaces_identity {id entitlement : String} {platformId deviceId : Option String}
    {call : Call} :
    KeepsPlaces m (.handle p (.identityResponse id platformId entitlement deviceId) call) ↔
      m.stateOf p ≠ some .ready := by
  simp [KeepsPlaces, Op.helloPeer, Op.identityPeer, Op.removedPeer]

theorem not_readyAs {s : AdmissionSession} (hs : m.session p = some s) (hr : s.state ≠ .ready)
    (id : String) : ¬ReadyAs m p id := by
  intro hparts
  obtain ⟨t, ht, hready, -⟩ := hparts
  obtain rfl := Option.some.inj (hs.symm.trans ht)
  exact hr hready

theorem storesMatch_authenticate {s : AdmissionSession} {id : String} {platform : Option String}
    (hw : WellFormed m) (hm : StoresMatch m) (hs : m.session p = some s)
    (hstate : s.state = .waitingAuth) :
    StoresMatch (m.updateSession p (fun s ↦ { s with
      aldivineId := some id, platform := platform, state := .waitingIdentity })) := by
  have hr : s.state ≠ .ready := by rw [hstate]; decide
  have hne := fun f q (hq : q ≠ p) ↦ session_updateSession_ne (m := m) f hq
  refine storesMatch_quiet (hne _) hm (not_readyAs hs hr) ?_ ?_ ?_
  · intro t ht
    rw [← Option.some.inj ((session_updateSession_eq _ hs).symm.trans ht)]
    exact HandshakeState.noConfusion
  · rw [updateSession_queue]
  · rw [updateSession_queue]
    intro x hx
    obtain ⟨q, t, ht, htid⟩ := hm.carried x hx
    refine ⟨q, t, ?_, htid⟩
    rw [hne _ q, ht]
    intro heq
    subst heq
    obtain rfl := Option.some.inj (hs.symm.trans ht)
    rw [hw.fresh q s hs hstate] at htid
    cases htid

theorem storesMatch_join {s : AdmissionSession} {id : String} {nowMs : UInt64}
    (hm : StoresMatch m) (hs : m.session p = some s) (hid : s.aldivineId = some id)
    (hadm : m.queue.Admits ⟨id, false⟩) :
    StoresMatch ((withQueue m (m.queue.join ⟨id, false⟩ nowMs).1).setState p .ready) := by
  rcases Queue.join_cases m.queue ⟨id, false⟩ nowMs with ⟨-, he⟩ | ⟨hn, -⟩ | ⟨hn, -⟩
  · let m₁ := withQueue m (m.queue.join ⟨id, false⟩ nowMs).1
    have hself := session_setState_eq (m := m₁) .ready hs
    have hne := fun q (hq : q ≠ p) ↦ session_setState_ne (m := m₁) .ready hq
    have hqueue : (m₁.setState p .ready).queue =
        { m.queue with playing := m.queue.playing ++ [⟨id, false, nowMs⟩] } := by
      rw [setState_queue]
      exact congrArg Prod.fst he
    have hcarries (q : Peer) (x : String) (hq : Carries m q x) :
        Carries (m₁.setState p .ready) q x := by
      rwa [carries_keep (m := m₁) hne (setState_aldivineIdOf .ready)]
    refine hm.take hadm.2.1 (fun q x ↦ ?_) (fun x ↦ ?_) hcarries (p := p) ?_ (fun x hx ↦ ?_)
    · by_cases hq : q = p
      · subst hq
        simp [ReadyAs, m₁, hself, hs, hid, eq_comm]
      · simp only [ReadyAs, m₁, hne q hq, session_withQueue, hq, false_and, false_or]
    · rw [hqueue]
      simp [Queue.playingIds]
    · exact hcarries p id ⟨s, hs, hid⟩
    · rwa [hqueue] at hx
  · exact absurd hadm hn
  · exact absurd hadm hn

theorem storesMatch_enqueue {s : AdmissionSession} {id : String} {e : QueuedEntry}
    {position : ℕ} (hm : StoresMatch m) (hs : m.session p = some s)
    (hid : s.aldivineId = some id) (hr : s.state ≠ .ready) (he : e.id = id) :
    StoresMatch ((withQueue m { m.queue with waitlist := m.queue.waitlist ++ [e] }).updateSession p
      (fun s ↦ { s with queuePosition := some position })) := by
  let m₁ := withQueue m { m.queue with waitlist := m.queue.waitlist ++ [e] }
  have hne := fun f q (hq : q ≠ p) ↦ session_updateSession_ne (m := m₁) f hq
  have hself := fun f ↦ session_updateSession_eq (m := m₁) (p := p) f hs
  refine storesMatch_quiet (m := m) (hne _) hm (not_readyAs hs hr) ?_ ?_ ?_
  · intro t ht
    rw [← Option.some.inj ((hself _).symm.trans ht)]
    exact hr
  · rw [updateSession_queue, withQueue]
    rfl
  · rw [updateSession_queue]
    intro x hx
    have hold : ∃ q, Carries m q x := by
      simp only [withQueue, Queue.waitlistIds, List.map_append, List.mem_append, List.map_cons,
        List.map_nil, List.mem_singleton] at hx
      rcases hx with hx | hx | rfl
      · exact hm.carried x (.inl hx)
      · exact hm.carried x (.inr hx)
      · exact ⟨p, s, hs, hid.trans (congrArg some he.symm)⟩
    obtain ⟨q, hq⟩ := hold
    refine ⟨q, (carries_keep (m := m₁) (hne _) ?_ q x).mpr hq⟩
    rw [aldivineIdOf, hself, aldivineIdOf, session_withQueue, hs]
    rfl

theorem remove_of_carries {id : String} (h : Carries m p id) :
    (m.remove p).1.queue = ((m.queue.playingLeave id).1.queueLeave id).1 := by
  obtain ⟨s, hs, hid⟩ := h
  simp only [remove, hs, hid]

theorem remove_of_not_carries (h : ∀ id, ¬Carries m p id) : (m.remove p).1.queue = m.queue := by
  cases hs : m.session p with
  | none => simp only [remove, hs]
  | some s =>
    cases hid : s.aldivineId with
    | none => simp only [remove, hs, hid]
    | some id => exact absurd ⟨s, hs, hid⟩ (h id)

theorem remove_maxPlayers : (m.remove p).1.maxPlayers = m.maxPlayers := by
  cases hs : m.session p with
  | none => simp only [remove, hs]
  | some s => cases hid : s.aldivineId <;> simp only [remove, hs, hid]

theorem wellFormed_remove (hw : WellFormed m) : WellFormed (m.remove p).1 := by
  have hgone (s : AdmissionSession) (hs : (m.remove p).1.session p = some s) : False := by
    rw [session_remove_self] at hs
    cases hs
  have hqueue : Sound (m.remove p).1.queue ∧ (m.remove p).1.queue.config = m.queue.config := by
    by_cases h : ∃ id, Carries m p id
    · obtain ⟨id, hid⟩ := h
      have hleft := playingLeave_spec hw.sound id
      have hq := queueLeave_spec hleft.sound id
      rw [remove_of_carries hid]
      exact ⟨hq.1, hq.2.1.trans hleft.config⟩
    · rw [remove_of_not_carries (not_exists.mp h)]
      exact ⟨hw.sound, rfl⟩
  exact hw.update (fun q hq ↦ session_remove_ne hq) hqueue.1 hqueue.2 remove_maxPlayers
    (fun s hs ↦ (hgone s hs).elim) (fun s hs ↦ (hgone s hs).elim)

theorem carries_remove {q : Peer} {id : String} (hq : q ≠ p) (h : Carries m q id) :
    Carries (m.remove p).1 q id := by
  rwa [Carries, session_remove_ne hq]

theorem readyAs_remove (q : Peer) (id : String) :
    ReadyAs (m.remove p).1 q id ↔ q ≠ p ∧ ReadyAs m q id := by
  refine readyAs_drop (fun q hq ↦ session_remove_ne hq) (fun s hs ↦ ?_) q id
  rw [session_remove_self] at hs
  cases hs

/-- A session without a playing slot takes at most its own waitlist place with it. -/
theorem storesMatch_remove_idle (hw : WellFormed m) (hm : StoresMatch m)
    (hidle : ∀ id, Carries m p id → id ∉ m.queue.playingIds) : StoresMatch (m.remove p).1 := by
  have hqueue : (m.remove p).1.queue.playingIds = m.queue.playingIds ∧
      ∀ x, x ∈ (m.remove p).1.queue.waitlistIds →
        x ∈ m.queue.waitlistIds ∧ ¬Carries m p x := by
    by_cases h : ∃ id, Carries m p id
    · obtain ⟨id, hid⟩ := h
      have hq := queueLeave_spec hw.sound id
      rw [remove_of_carries hid, playingLeave_absent (hidle id hid)]
      refine ⟨by rw [Queue.playingIds, hq.2.2.1]; rfl, fun x hx ↦ ?_⟩
      obtain ⟨hx, hne⟩ := (hq.2.2.2 x).mp hx
      exact ⟨hx, fun hc ↦ hne (carries_unique hc hid)⟩
    · rw [remove_of_not_carries (not_exists.mp h)]
      exact ⟨rfl, fun x hx ↦ ⟨hx, fun hc ↦ h ⟨x, hc⟩⟩⟩
  rw [StoresMatch, hqueue.1]
  refine (hm.drop_iff readyAs_remove).mpr ⟨fun id hr ↦ ?_, ?_⟩
  · exact hidle id (readyAs_carries hr) (hm.playing_of_ready p id hr)
  · rintro x (hx | hx)
    · obtain ⟨q, hq⟩ := hm.carried x (.inl hx)
      exact ⟨q, carries_remove (fun hqp ↦ hidle x (hqp ▸ hq) hx) hq⟩
    · obtain ⟨hx, hnot⟩ := hqueue.2 x hx
      obtain ⟨q, hq⟩ := hm.carried x (.inr hx)
      exact ⟨q, carries_remove (fun hqp ↦ hnot (hqp ▸ hq)) hq⟩

/-- Freeing a playing slot always promotes the head of the waitlist, whose session is not told. -/
theorem storesMatch_remove_playing {id : String} (hw : WellFormed m) (hm : StoresMatch m)
    (hid : Carries m p id) (hplay : id ∈ m.queue.playingIds) :
    StoresMatch (m.remove p).1 ↔ m.stateOf p = some .ready ∧ m.queue.waitlist = [] := by
  have hleft := playingLeave_spec hw.sound id
  have hq := queueLeave_spec hleft.sound id
  have hqueue := remove_of_carries hid
  have hout := playingLeave_promotes hw.sound hw.unreserved hplay
  have hready : m.stateOf p = some .ready ↔ ReadyAs m p id := by
    obtain ⟨s, hs, hsid⟩ := hid
    simp [stateOf, ReadyAs, hs, hsid]
  rw [hready, ← hout]
  refine hm.leave_iff (p := p) hplay (fun q x ↦ readyAs_carries)
    (fun x hx ↦ carries_unique (readyAs_carries hx) hid) readyAs_remove
    (fun q x ↦ carries_remove) (fun x ↦ ?_) (fun x hx hp ↦ ?_) (fun hnone x hx ↦ ?_)
  · rw [hqueue, ← hleft.playing x, Queue.playingIds, hq.2.2.1]
    rfl
  · exact hw.sound.not_both hp (hleft.promoted x hx).1
  · rw [hqueue, hq.2.2.2, hleft.waitlist, Queue.waitlistIds, hout.mp hnone] at hx
    cases hx.1.1

theorem storesMatch_remove_iff (hw : WellFormed m) (hm : StoresMatch m) :
    StoresMatch (m.remove p).1 ↔ KeepsPlaces m (.remove p) := by
  have hkeeps : KeepsPlaces m (.remove p) ↔ ∀ id, Carries m p id → id ∈ m.queue.playingIds →
      m.stateOf p = some .ready ∧ m.queue.waitlist = [] := by
    simp [KeepsPlaces, Op.helloPeer, Op.identityPeer, Op.removedPeer, ← mem_aldivineIdOf]
  rw [hkeeps]
  by_cases h : ∃ id, Carries m p id ∧ id ∈ m.queue.playingIds
  · obtain ⟨id, hid, hplay⟩ := h
    rw [storesMatch_remove_playing hw hm hid hplay]
    exact ⟨fun hr _ _ _ ↦ hr, fun hall ↦ hall id hid hplay⟩
  · have hidle := fun id hid hplay ↦ h ⟨id, hid, hplay⟩
    exact iff_of_true (storesMatch_remove_idle hw hm hidle)
      (fun id hid hplay ↦ (hidle id hid hplay).elim)

theorem wellFormed_new (serverName : String) (maxPlayers : UInt32) (req : IdentityRequirements) :
    WellFormed (.new serverName maxPlayers req : AdmissionManager Peer) where
  sound := sound_new _
  slots := by simp [AdmissionManager.new, QueueConfig.new, Queue.new]
  unreserved := by simp [AdmissionManager.new, QueueConfig.new, Queue.new]
  fresh _ _ hs := by cases hs
  known _ _ hs := by cases hs

theorem storesMatch_new (serverName : String) (maxPlayers : UInt32) (req : IdentityRequirements) :
    StoresMatch (.new serverName maxPlayers req : AdmissionManager Peer) where
  holder _ hid := by cases hid
  playing_of_ready _ _ hr := by
    obtain ⟨s, hs, -⟩ := hr
    cases hs
  carried _ hid := by rcases hid with hid | hid <;> cases hid

variable [ToString Peer] {codec : UlidCodec}

theorem wellFormed_move {msg : HandshakeMessage} {call : Call} {reply : List HandshakeMessage}
    (hw : WellFormed m) (h : Move codec m p call msg m' reply) : WellFormed m' := by
  have hne : ∀ q, q ≠ p → m'.session q = m.session q := fun q hq ↦ h.session_ne hq
  cases h with
  | refuse | entitle | rejoin => exact hw
  | authFail | identityFail | turnAway => exact wellFormed_setState hw (by decide) (by decide)
  | identify => exact wellFormed_setState hw (by decide) (by decide)
  | greet =>
    have hself := session_onHello_self (m := m) (p := p)
    refine hw.update hne hw.sound rfl rfl ?_ ?_
    · intro t ht _
      rw [← Option.some.inj (hself.symm.trans ht)]
      rfl
    · intro t ht hstate
      rw [← Option.some.inj (hself.symm.trans ht)] at hstate
      cases hstate
  | authenticate hs hstate hid =>
    have hself := fun f ↦ session_updateSession_eq (m := m) (p := p) f hs
    refine hw.update hne (by rw [updateSession_queue]; exact hw.sound)
      (by rw [updateSession_queue]) (updateSession_maxPlayers _) ?_ ?_
    all_goals
      intro t ht hstate
      rw [← Option.some.inj ((hself _).symm.trans ht)] at hstate
      cases hstate
  | @join s id hs hid hr hadm =>
    let m₁ := withQueue m (m.queue.join ⟨id, false⟩ call.nowMs).1
    have hself := session_setState_eq (m := m₁) .ready hs
    refine hw.update hne (setState_queue (m := m₁) .ready ▸ join_sound hw.sound _ _)
      ((congrArg Queue.config (setState_queue (m := m₁) .ready)).trans (join_config _ _))
      (setState_maxPlayers (m := m₁) .ready) ?_ ?_
    · intro t ht hstate
      rw [← Option.some.inj (hself.symm.trans ht)] at hstate
      cases hstate
    · intro t ht _
      exact ⟨id, by rw [← Option.some.inj (hself.symm.trans ht), hid]⟩
  | @enqueue s id hs hid hr hb hadm hp hwait hjoin =>
    rw [← hjoin]
    let m₁ := withQueue m (m.queue.join ⟨id, false⟩ call.nowMs).1
    have hself := fun f ↦ session_updateSession_eq (m := m₁) (p := p) f hs
    refine hw.update (hjoin ▸ hne) (by rw [updateSession_queue]; exact join_sound hw.sound _ _)
      (by rw [updateSession_queue]; exact join_config _ _) (updateSession_maxPlayers _) ?_ ?_
    · intro t ht hstate
      rw [← Option.some.inj ((hself _).symm.trans ht)] at hstate ⊢
      exact hw.fresh p s hs hstate
    · intro t ht _
      exact ⟨id, by rw [← Option.some.inj ((hself _).symm.trans ht)]; exact hid⟩

theorem storesMatch_greet_iff (hw : WellFormed m) (hm : StoresMatch m) :
    StoresMatch (m.onHello p protocolVersion).1 ↔ m.stateOf p ≠ some .ready ∧
      ∀ id ∈ m.aldivineIdOf p, id ∈ m.queue.waitlistIds → carriedElsewhere m p id = true := by
  have hself := session_onHello_self (m := m) (p := p)
  have hne := fun q (hq : q ≠ p) ↦ session_onHello_ne (m := m) hq
  have hcarries (q : Peer) (id : String) :
      Carries (m.onHello p protocolVersion).1 q id ↔ q ≠ p ∧ Carries m q id := by
    by_cases hq : q = p
    · subst hq
      simp [Carries, hself, AdmissionSession.new]
    · simp only [Carries, hne q hq, ne_eq, hq, not_false_iff, true_and]
  have hnew : ∀ s, (m.onHello p protocolVersion).1.session p = some s → s.state ≠ .ready := by
    intro s hs
    rw [← Option.some.inj (hself.symm.trans hs)]
    exact HandshakeState.noConfusion
  have hqueue : (m.onHello p protocolVersion).1.queue = m.queue := rfl
  rw [StoresMatch, hqueue, hm.drop_iff (readyAs_drop hne hnew), not_ready_iff hw]
  refine and_congr_right (fun hnone ↦ ?_)
  simp only [hcarries, carriedElsewhere_iff, mem_aldivineIdOf]
  constructor
  · exact fun h id _ hwait ↦ h id (.inr hwait)
  · rintro h id (hplay | hwait)
    · obtain ⟨q, hq, -⟩ := hm.holder id hplay
      exact ⟨q, fun hqp ↦ hnone id (hqp ▸ hq), readyAs_carries hq⟩
    · obtain ⟨q, hq⟩ := hm.carried id (.inr hwait)
      by_cases hqp : q = p
      · exact h id (hqp ▸ hq) hwait
      · exact ⟨q, hqp, hq⟩

theorem storesMatch_move_iff {msg : HandshakeMessage} {call : Call} {reply : List HandshakeMessage}
    (hw : WellFormed m) (hm : StoresMatch m) (h : Move codec m p call msg m' reply) :
    StoresMatch m' ↔ KeepsPlaces m (.handle p msg call) := by
  have hready : KeepsPlaces m (.handle p .clientReady call) := keepsPlaces_of_quiet rfl rfl rfl
  cases h with
  | refuse code reason hhello hid =>
    refine iff_of_true hm ?_
    rcases hid with hid | hs
    · exact keepsPlaces_of_quiet hhello hid rfl
    · have hstate : m.stateOf p ≠ some .ready := by simp [stateOf, hs]
      refine ⟨by simp [hhello], ?_, by simp [Op.removedPeer]⟩
      intro q hq
      cases msg <;> cases hq
      exact hstate
  | greet =>
    rw [storesMatch_greet_iff hw hm]
    simp [KeepsPlaces, Op.helloPeer, Op.identityPeer, Op.removedPeer]
  | authFail hs hstate =>
    refine iff_of_true ((storesMatch_setState_iff hw hm (by decide)).mpr ?_)
      (keepsPlaces_of_quiet rfl rfl rfl)
    simp [stateOf, hs, hstate]
  | authenticate hs hstate hid =>
    exact iff_of_true (storesMatch_authenticate hw hm hs hstate) (keepsPlaces_of_quiet rfl rfl rfl)
  | identityFail | identify =>
    rw [storesMatch_setState_iff hw hm (by decide), keepsPlaces_identity]
  | entitle => exact iff_of_true hm (keepsPlaces_of_quiet rfl rfl rfl)
  | rejoin => exact iff_of_true hm hready
  | join hs hid hr hadm => exact iff_of_true (storesMatch_join hm hs hid hadm) hready
  | enqueue hs hid hr => exact iff_of_true (storesMatch_enqueue hm hs hid hr rfl) hready
  | turnAway hs hid hr =>
    refine iff_of_true ((storesMatch_setState_iff hw hm (by decide)).mpr ?_) hready
    simp [stateOf, hs, hr]

theorem wellFormed_step (hw : WellFormed m) (op : Op Peer) : WellFormed (step codec m op).1 := by
  cases op with
  | handle p msg call => exact wellFormed_move hw (handle_move codec call msg)
  | remove p => exact wellFormed_remove hw
  | setManifest entries => exact ⟨hw.sound, hw.slots, hw.unreserved, hw.fresh, hw.known⟩

theorem inStep_step_iff (hw : WellFormed m) (h : InStep m) (op : Op Peer) :
    InStep (step codec m op).1 ↔ KeepsPlaces m op := by
  rw [inStep_iff (wellFormed_step hw op)]
  rw [inStep_iff hw] at h
  cases op with
  | handle p msg call => exact storesMatch_move_iff hw h (handle_move codec call msg)
  | remove p => exact storesMatch_remove_iff hw h
  | setManifest entries =>
    exact iff_of_true ⟨h.holder, h.playing_of_ready, h.carried⟩ (keepsPlaces_of_quiet rfl rfl rfl)

/-- A run keeps the session table and the queue in step throughout exactly when none of its calls
abandons a place. -/
theorem places_in_step_iff (codec : UlidCodec) (serverName : String) (maxPlayers : UInt32)
    (req : IdentityRequirements) (ops : List (Op Peer)) :
    (∀ before, before <+: ops → InStep (run (step codec) (.new serverName maxPlayers req) before)) ↔
      ∀ x ∈ trace (step codec) (.new serverName maxPlayers req) ops, KeepsPlaces x.1 x.2 := by
  have hw : WellFormed (.new serverName maxPlayers req : AdmissionManager Peer) :=
    wellFormed_new serverName maxPlayers req
  have hm : InStep (.new serverName maxPlayers req : AdmissionManager Peer) :=
    (inStep_iff hw).mpr (storesMatch_new serverName maxPlayers req)
  exact invariant_run_iff (B := WellFormed) (I := InStep) (P := KeepsPlaces)
    (fun m op hw ↦ wellFormed_step hw op) (fun m op hw h ↦ inStep_step_iff hw h op) hw hm ops

def rehelloRun : List (Op String) :=
  [.hello "a" (.atTime 0), .auth "a" "ann" "n-1-a" (.atTime 1),
    .identity "a" "ann" none (.atTime 2), .ready "a" (.atTime 3), .hello "a" (.atTime 4)]

theorem rehelloRun_out_of_step :
    ¬InStep (run (step .zero) (.new "srv" 4 .lenient) rehelloRun) := by
  intro h
  obtain ⟨p, ⟨s, hs, hr, -⟩, -⟩ := h.holder "ann" (by decide)
  have hmem := mem_readyEntries (e := ⟨p, s⟩).mpr ⟨hs, hr⟩
  have hnone : readyEntries (run (step .zero) (.new "srv" 4 .lenient) rehelloRun) = [] := by decide
  rw [hnone] at hmem
  cases hmem

end Aldivine.Admission.Places
