import Aldivine.Admission.Manager
import Aldivine.AdmissionQueue.Invariants

namespace Aldivine.Admission.Moves

open Foundation.Text Core.PlayerId Identity.Policy Deferrals.Session AdmissionQueue.Model
open AdmissionQueue.Invariants Handshake Manager Manager.AdmissionManager

variable {Peer : Type} [DecidableEq Peer] {m : AdmissionManager Peer} {p q : Peer}

theorem session_updateSession_self (f : AdmissionSession → AdmissionSession) :
    (m.updateSession p f).session p = (m.session p).map f := by
  cases hs : m.session p with
  | none => simp only [updateSession, hs, Option.map_none]
  | some s =>
    simp only [updateSession, hs, Option.map_some]
    exact AList.lookup_insert _

theorem session_updateSession_ne (f : AdmissionSession → AdmissionSession) (h : q ≠ p) :
    (m.updateSession p f).session q = m.session q := by
  cases hs : m.session p with
  | none => simp only [updateSession, hs]
  | some s =>
    simp only [updateSession, hs]
    exact AList.lookup_insert_ne h

theorem updateSession_queue (f : AdmissionSession → AdmissionSession) :
    (m.updateSession p f).queue = m.queue := by
  cases hs : m.session p <;> simp only [updateSession, hs]

theorem updateSession_manifest (f : AdmissionSession → AdmissionSession) :
    (m.updateSession p f).manifest = m.manifest := by
  cases hs : m.session p <;> simp only [updateSession, hs]

theorem updateSession_maxPlayers (f : AdmissionSession → AdmissionSession) :
    (m.updateSession p f).maxPlayers = m.maxPlayers := by
  cases hs : m.session p <;> simp only [updateSession, hs]

theorem updateSession_updateSession (f g : AdmissionSession → AdmissionSession) :
    (m.updateSession p f).updateSession p g = m.updateSession p (g ∘ f) := by
  cases hs : m.session p with
  | none => simp only [updateSession, hs]
  | some s =>
    have hs' : (m.updateSession p f).session p = some (f s) := by
      rw [session_updateSession_self, hs, Option.map_some]
    rw [updateSession, hs']
    simp only [updateSession, hs, AList.insert_insert, Function.comp_apply]

theorem setState_setState (a b : HandshakeState) :
    (m.setState p a).setState p b = m.setState p b := by
  simp only [setState, updateSession_updateSession, Function.comp_def]

theorem setState_manifest (a : HandshakeState) : (m.setState p a).manifest = m.manifest :=
  updateSession_manifest _

theorem setState_queue (a : HandshakeState) : (m.setState p a).queue = m.queue :=
  updateSession_queue _

theorem setState_maxPlayers (a : HandshakeState) : (m.setState p a).maxPlayers = m.maxPlayers :=
  updateSession_maxPlayers _

theorem session_setState_ne (a : HandshakeState) (h : q ≠ p) :
    (m.setState p a).session q = m.session q := session_updateSession_ne _ h

theorem session_updateSession_eq (f : AdmissionSession → AdmissionSession) {s : AdmissionSession}
    (hs : m.session p = some s) : (m.updateSession p f).session p = some (f s) := by
  rw [session_updateSession_self, hs, Option.map_some]

theorem session_setState_eq (a : HandshakeState) {s : AdmissionSession}
    (hs : m.session p = some s) : (m.setState p a).session p = some { s with state := a } :=
  session_updateSession_eq _ hs

def withQueue (m : AdmissionManager Peer) (queue : Queue) : AdmissionManager Peer :=
  { m with queue := queue }

theorem session_withQueue (queue : Queue) : (withQueue m queue).session p = m.session p := rfl

theorem session_remove_self : (m.remove p).1.session p = none := by
  cases hs : m.session p with
  | none => simp only [remove, hs]
  | some s =>
    cases hid : s.aldivineId <;> simp only [remove, hs, hid] <;> exact AList.lookup_erase _ _

theorem session_remove_ne (h : q ≠ p) : (m.remove p).1.session q = m.session q := by
  cases hs : m.session p with
  | none => simp only [remove, hs]
  | some s =>
    cases hid : s.aldivineId <;> simp only [remove, hs, hid] <;> exact AList.lookup_erase_ne h

theorem pollDeferrals_eq (call : Call) (id : String) : pollDeferrals call id = .admitted := rfl

/-- An identity response that the policy stage and the deferral gates let through. -/
def Identified (codec : UlidCodec) (req : IdentityRequirements) (call : Call) (id : String)
    (deviceId : Option String) : Prop :=
  checkIdentityPolicy codec (presentedIdentity codec call id deviceId) req = .pass ∧
    pollDeferrals call id = .admitted

instance (codec : UlidCodec) (req : IdentityRequirements) (call : Call) (id : String)
    (deviceId : Option String) : Decidable (Identified codec req call id deviceId) :=
  inferInstanceAs (Decidable (_ ∧ _))

theorem onIdentity_of_identified {codec : UlidCodec} {call : Call} {s : AdmissionSession}
    {id : String} {deviceId : Option String} (hs : m.session p = some s)
    (hid : Identified codec m.identityReq call id deviceId) :
    m.onIdentity codec p id deviceId call =
      (m.setState p .waitingQueue, [.deferralDone, .entitlementRequest]) := by
  simp only [onIdentity, hs, hid.1, hid.2, setState_setState]

theorem onReady_of_admits {s : AdmissionSession} {id : String} {nowMs : UInt64}
    (hs : m.session p = some s) (hid : s.aldivineId = some id) (hr : s.state ≠ .ready)
    (hadm : m.queue.Admits ⟨id, false⟩) :
    m.onReady p nowMs = ((withQueue m (m.queue.join ⟨id, false⟩ nowMs).1).setState p .ready,
      [.queueAdmitted, .manifestOffer m.manifest, .serverReady true]) := by
  have hne : id.isEmpty = false := by
    simpa using ne_empty_of_not_blank hadm.1
  rcases Queue.join_cases m.queue ⟨id, false⟩ nowMs with ⟨-, he⟩ | ⟨hn, -⟩ | ⟨hn, -⟩
  · simp only [onReady, hs, hid, Option.getD_some, hne, Bool.false_eq_true, if_false, hr, he,
      setState_setState, setState_manifest]
    rfl
  · exact absurd hadm hn
  · exact absurd hadm hn

/-- A `ClientReady` whose id already has a place is turned away. -/
theorem onReady_of_present {s : AdmissionSession} {id : String} {nowMs : UInt64}
    (hs : m.session p = some s) (hid : s.aldivineId = some id) (hr : s.state ≠ .ready)
    (hb : isBlank id = false)
    (hplace : id ∈ m.queue.playingIds ∨ id ∈ m.queue.waitlistIds) :
    m.onReady p nowMs =
      (m.setState p .rejected, [.reject rejectDeferral "already connected"]) := by
  have hne : id.isEmpty = false := by simpa using ne_empty_of_not_blank hb
  have hjoin : m.queue.join ⟨id, false⟩ nowMs = _ := join_present nowMs hb hplace
  simp only [onReady, hs, hid, Option.getD_some, hne, Bool.false_eq_true, if_false, hr, hjoin,
    joinRefusal]

/-- Everything one message from `p` can do to the manager, and what it is answered with. -/
inductive Move [ToString Peer] (codec : UlidCodec) (m : AdmissionManager Peer) (p : Peer)
    (call : Call) : HandshakeMessage → AdmissionManager Peer → List HandshakeMessage → Prop
  | refuse {msg : HandshakeMessage} (code reason : String)
      (hhello : (Op.handle p msg call).helloPeer = none)
      (hid : (Op.handle p msg call).identityPeer = none ∨ m.session p = none) :
      Move codec m p call msg m [.reject code reason]
  | greet (build : UInt32) (edition clientVersion : String) :
      Move codec m p call (.clientHello protocolVersion build edition clientVersion)
        (m.onHello p protocolVersion).1 (m.onHello p protocolVersion).2
  | authFail {s : AdmissionSession} {id : String} {token platform response : Option String}
      (hs : m.session p = some s) (hw : s.state = .waitingAuth) (code reason : String) :
      Move codec m p call (.clientAuth id token platform response) (m.setState p .rejected)
        [.reject code reason]
  | authenticate {s : AdmissionSession} {id : String} {token platform : Option String}
      (hs : m.session p = some s) (hw : s.state = .waitingAuth) (hid : isBlank id = false) :
      Move codec m p call (.clientAuth id token platform (some s.nonce))
        (m.updateSession p (fun s ↦ { s with
          aldivineId := some id, platform := platform, state := .waitingIdentity }))
        [.authResult true "auth ok", .identityRequest]
  | identityFail {s : AdmissionSession} {id entitlement : String}
      {platformId deviceId : Option String} (hs : m.session p = some s)
      (hid : ¬Identified codec m.identityReq call id deviceId) (code reason : String) :
      Move codec m p call (.identityResponse id platformId entitlement deviceId)
        (m.setState p .rejected) [.reject code reason]
  | identify {s : AdmissionSession} {id entitlement : String}
      {platformId deviceId : Option String} (hs : m.session p = some s)
      (hid : Identified codec m.identityReq call id deviceId) :
      Move codec m p call (.identityResponse id platformId entitlement deviceId)
        (m.setState p .waitingQueue) [.deferralDone, .entitlementRequest]
  | entitle {s : AdmissionSession} (hs : m.session p = some s) (hr : s.state ≠ .rejected) :
      Move codec m p call .entitlementRequest m [.entitlementResult "FREE" "ok"]
  | rejoin {s : AdmissionSession} (hs : m.session p = some s) (hr : s.state = .ready) :
      Move codec m p call .clientReady m [.serverReady true]
  | join {s : AdmissionSession} {id : String} (hs : m.session p = some s)
      (hid : s.aldivineId = some id) (hr : s.state ≠ .ready)
      (hadm : m.queue.Admits ⟨id, false⟩) :
      Move codec m p call .clientReady
        ((withQueue m (m.queue.join ⟨id, false⟩ call.nowMs).1).setState p .ready)
        [.queueAdmitted, .manifestOffer m.manifest, .serverReady true]
  | enqueue {s : AdmissionSession} {id : String} (hs : m.session p = some s)
      (hid : s.aldivineId = some id) (hr : s.state ≠ .ready) (hb : isBlank id = false)
      (hadm : ¬m.queue.Admits ⟨id, false⟩) (hp : id ∉ m.queue.playingIds)
      (hw : id ∉ m.queue.waitlistIds)
      (hjoin : (m.queue.join ⟨id, false⟩ call.nowMs).1 =
        { m.queue with waitlist := m.queue.waitlist ++ [⟨id, false, call.nowMs⟩] }) :
      Move codec m p call .clientReady
        ((withQueue m { m.queue with
            waitlist := m.queue.waitlist ++ [⟨id, false, call.nowMs⟩] }).updateSession p
          (fun s ↦ { s with queuePosition := some (m.queue.waitlist.length + 1) }))
        [.queueUpdate (m.queue.waitlist.length + 1) (m.queue.waitlist.length + 1),
          .manifestOffer m.manifest]
  | turnAway {s : AdmissionSession} {id : String} (hs : m.session p = some s)
      (hid : s.aldivineId = some id) (hr : s.state ≠ .ready)
      (hadm : ¬m.queue.Admits ⟨id, false⟩) (reason : RejectReason) :
      Move codec m p call .clientReady (m.setState p .rejected) [joinRefusal reason]

variable [ToString Peer] (codec : UlidCodec) (call : Call)

theorem onAuth_move (id : String) (token platform response : Option String) :
    Move codec m p call (.clientAuth id token platform response)
      (m.onAuth p id platform response).1 (m.onAuth p id platform response).2 := by
  cases hs : m.session p with
  | none =>
    simp only [onAuth, hs]
    exact .refuse _ _ rfl (.inl rfl)
  | some s =>
    simp only [onAuth, hs]
    split
    · exact .refuse _ _ rfl (.inl rfl)
    · have hw : s.state = .waitingAuth := not_not.mp ‹_›
      split
      · exact .authFail hs hw _ _
      · split
        · exact .authFail hs hw _ _
        · have hr : response = some s.nonce := not_not.mp ‹_›
          subst hr
          exact .authenticate hs hw (by simpa using ‹¬isBlank id = true›)

theorem onIdentity_move (id entitlement : String) (platformId deviceId : Option String) :
    Move codec m p call (.identityResponse id platformId entitlement deviceId)
      (m.onIdentity codec p id deviceId call).1 (m.onIdentity codec p id deviceId call).2 := by
  cases hs : m.session p with
  | none =>
    simp only [onIdentity, hs]
    exact .refuse _ _ rfl (.inr hs)
  | some s =>
    simp only [onIdentity, hs]
    cases hpol : checkIdentityPolicy codec (presentedIdentity codec call id deviceId)
        m.identityReq with
    | reject r => exact .identityFail hs (fun h ↦ by simp [Identified, hpol] at h) _ _
    | pass =>
      simp only [pollDeferrals_eq, setState_setState]
      exact .identify hs ⟨hpol, pollDeferrals_eq _ _⟩

theorem onEntitlement_move :
    Move codec m p call .entitlementRequest (m.onEntitlement p).1 (m.onEntitlement p).2 := by
  cases hs : m.session p with
  | none =>
    simp only [onEntitlement, hs]
    exact .refuse _ _ rfl (.inl rfl)
  | some s =>
    simp only [onEntitlement, hs]
    split
    · exact .refuse _ _ rfl (.inl rfl)
    · rename_i h
      exact .entitle hs (fun hr ↦ h (by simp [hr]))

theorem onReady_move :
    Move codec m p call .clientReady (m.onReady p call.nowMs).1 (m.onReady p call.nowMs).2 := by
  cases hs : m.session p with
  | none =>
    simp only [onReady, hs]
    exact .refuse _ _ rfl (.inl rfl)
  | some s =>
    cases hid : s.aldivineId with
    | none =>
      simp only [onReady, hs, hid, Option.getD_none]
      exact .refuse _ _ rfl (.inl rfl)
    | some id =>
      simp only [onReady, hs, hid, Option.getD_some]
      split
      · exact .refuse _ _ rfl (.inl rfl)
      · split
        · exact .rejoin hs ‹_›
        · have hr : s.state ≠ .ready := ‹_›
          rcases Queue.join_cases m.queue ⟨id, false⟩ call.nowMs with
            ⟨hadm, he⟩ | ⟨hadm, hb, hp, hw, -, he⟩ | ⟨hadm, reason, he⟩
          · have hmove : Move codec m p call .clientReady _ _ := .join hs hid hr hadm
            rw [he] at hmove ⊢
            simp only [setState_setState, setState_manifest]
            exact hmove
          · rw [he]
            simp only [updateSession_queue, updateSession_manifest, Queue.queueLen,
              List.length_append,
              List.length_singleton]
            exact .enqueue hs hid hr hb hadm hp hw (by rw [he])
          · rw [he]
            exact .turnAway hs hid hr hadm reason

theorem onHello_move (version : UInt16) (build : UInt32) (edition clientVersion : String) :
    Move codec m p call (.clientHello version build edition clientVersion)
      (m.onHello p version).1 (m.onHello p version).2 := by
  by_cases h : version = protocolVersion
  · subst h
    exact .greet build edition clientVersion
  · simp only [onHello, if_pos h]
    exact .refuse _ _ (if_neg h) (.inl rfl)

/-- The handlers do nothing beyond the listed moves. -/
theorem handle_move (msg : HandshakeMessage) :
    Move codec m p call msg (m.handle codec p msg call).1 (m.handle codec p msg call).2 := by
  cases msg with
  | clientHello version build edition clientVersion =>
    exact onHello_move codec call version build edition clientVersion
  | clientAuth id token platform response => exact onAuth_move codec call id token platform response
  | identityResponse id platformId entitlement deviceId =>
    exact onIdentity_move codec call id entitlement platformId deviceId
  | entitlementRequest => exact onEntitlement_move codec call
  | clientReady => exact onReady_move codec call
  | _ => exact .refuse _ _ rfl (.inl rfl)

theorem exists_move (m : AdmissionManager Peer) (p : Peer) (msg : HandshakeMessage) :
    ∃ m' reply, m.handle codec p msg call = (m', reply) ∧ Move codec m p call msg m' reply :=
  ⟨_, _, rfl, handle_move codec call msg⟩

theorem session_onHello_self :
    (m.onHello p protocolVersion).1.session p =
      some (.new m.nextSession ("n-" ++ toString m.nextSession ++ "-" ++ toString p)) :=
  AList.lookup_insert _

theorem session_onHello_ne (h : q ≠ p) :
    (m.onHello p protocolVersion).1.session q = m.session q :=
  AList.lookup_insert_ne h

variable {codec call}

theorem Move.session_ne {msg : HandshakeMessage} {m' : AdmissionManager Peer}
    {reply : List HandshakeMessage} (h : Move codec m p call msg m' reply) (hq : q ≠ p) :
    m'.session q = m.session q := by
  cases h with
  | refuse | entitle | rejoin => rfl
  | greet => exact session_onHello_ne hq
  | authenticate => exact session_updateSession_ne _ hq
  | authFail | identityFail | identify | turnAway => exact session_updateSession_ne _ hq
  | join | enqueue => exact session_updateSession_ne _ hq

theorem session_step_ne {op : Op Peer} (hop : op.peer ≠ some p) :
    (step codec m op).1.session p = m.session p := by
  cases op with
  | handle q msg call =>
    exact (handle_move codec call msg).session_ne (fun heq ↦ hop (congrArg some heq.symm))
  | remove q => exact session_remove_ne (fun heq ↦ hop (congrArg some heq.symm))
  | setManifest entries => rfl

theorem Move.ready_of_serverReady {msg : HandshakeMessage} {m' : AdmissionManager Peer}
    {reply : List HandshakeMessage} (h : Move codec m p call msg m' reply)
    (hreply : .serverReady true ∈ reply) : m'.stateOf p = some .ready := by
  cases h with
  | rejoin hs hr => simp [stateOf, hs, hr]
  | @join s id hs hid hr hadm =>
    let m₁ := withQueue m (m.queue.join ⟨id, false⟩ call.nowMs).1
    rw [stateOf, session_setState_eq (m := m₁) .ready hs, Option.map_some]
  | turnAway hs hid hr hadm reason => cases reason <;> simp [joinRefusal] at hreply
  | _ => simp [onHello] at hreply

end Aldivine.Admission.Moves
