import Aldivine.Admission.Walk
import Aldivine.AdmissionQueue.Order

namespace Aldivine.Admission.Binding

open Foundation.Text Foundation.Execution Foundation.Locate Core.PlayerId Identity.Policy
open AdmissionQueue.Model Handshake Manager Manager.AdmissionManager Moves Walk
open AdmissionQueue.Order hiding Call step

variable {Peer : Type} [DecidableEq Peer]

/-- The account that the call authenticates `p` as; a hello forgets the one before. -/
def authenticatedAs (p : Peer) (x : Event Peer) : Option (Option String) :=
  match x.2 with
  | .handle q (.clientAuth id _ _ response) _ =>
    if q = p ∧ isBlank id = false ∧
        ∃ s ∈ x.1.session p, s.state = .waitingAuth ∧ response = some s.nonce then
      some (some id)
    else none
  | op => if op.helloPeer = some p then some none else none

/-- The identity that the policy is shown for a response is the one that its account id names. -/
def Presented (codec : UlidCodec) (call : Call) (id : String) (deviceId : Option String) : Prop :=
  AldivinePlayerId.fromString codec id =
    some (presentedIdentity codec call id deviceId).aldivineId

instance (codec : UlidCodec) (call : Call) (id : String) (deviceId : Option String) :
    Decidable (Presented codec call id deviceId) := inferInstanceAs (Decidable (_ = _))

/-- The account that the policy and the gates were evaluated for and let `p` through, `some none` if
there is none; a hello forgets the check before. -/
def checkedAs (codec : UlidCodec) (p : Peer) (x : Event Peer) : Option (Option String) :=
  match x.2 with
  | .handle q (.identityResponse id _ _ deviceId) call =>
    if q = p then
      some (if Identified codec x.1.identityReq call id deviceId ∧ Presented codec call id deviceId
        then some id else none)
    else none
  | op => if op.helloPeer = some p then some none else none

/-- `p` is authenticated as `a`, and the last check it went through was for `a`. -/
structure Bound (codec : UlidCodec) (p : Peer) (a : String) (history : List (Event Peer)) :
    Prop where
  authenticated : latest (authenticatedAs p) history = some (some a)
  checked : latest (checkedAs codec p) history = some (some a)

/-- With this call `p` becomes ready under `a`, or puts `a` on the waitlist. -/
def Enters [ToString Peer] (codec : UlidCodec) (p : Peer) (a : String) (x : Event Peer) : Prop :=
  (x.1.stateOf p ≠ some .ready ∧ (step codec x.1 x.2).1.stateOf p = some .ready ∧
      (step codec x.1 x.2).1.aldivineIdOf p = some a) ∨
    (x.2.peer = some p ∧ a ∉ x.1.queue.waitlistIds ∧
      a ∈ (step codec x.1 x.2).1.queue.waitlistIds)

/-- An identity that passes is that of the session, a ULID, and a `ClientReady` that the queue takes
comes from a session that waits for it. The handlers check none of this. -/
def Matching (codec : UlidCodec) (m : AdmissionManager Peer) : Op Peer → Prop
  | .handle p (.identityResponse id _ _ deviceId) call =>
    Identified codec m.identityReq call id deviceId →
      ∀ a ∈ m.aldivineIdOf p, id = a ∧ (AldivinePlayerId.fromString codec id).isSome
  | .handle p .clientReady call => ∀ s ∈ m.session p, ∀ a ∈ s.aldivineId,
    (∀ reason, (m.queue.join ⟨a, false⟩ call.nowMs).2 ≠ .rejected reason) →
      s.state = .waitingQueue ∨ s.state = .ready
  | _ => True

variable {codec : UlidCodec} {m : AdmissionManager Peer} {p q : Peer} {op : Op Peer}
  {history : List (Event Peer)} {a : String}

section Calls

/-- An id that is no ULID is shown to the policy as a fresh one. -/
theorem presented_of_isSome {call : Call} {id : String} {deviceId : Option String}
    (h : (AldivinePlayerId.fromString codec id).isSome) : Presented codec call id deviceId := by
  obtain ⟨parsed, hparsed⟩ := Option.isSome_iff_exists.mp h
  rw [Presented, presentedIdentity, hparsed]
  rfl

theorem checkedAs_none (hhello : op.helloPeer ≠ some p) (hidentity : op.identityPeer ≠ some p) :
    checkedAs codec p (m, op) = none := by
  cases op with
  | handle q msg call =>
    cases msg with
    | identityResponse => exact if_neg (fun heq ↦ hidentity (congrArg some heq))
    | _ => simp only [checkedAs, if_neg hhello]
  | remove q => rfl
  | setManifest entries => rfl

theorem authenticatedAs_ne (hop : op.peer ≠ some p) : authenticatedAs p (m, op) = none := by
  cases op with
  | handle q msg call =>
    have hq : q ≠ p := fun heq ↦ hop (congrArg some heq)
    cases msg with
    | clientAuth id token platform response => exact if_neg (fun h ↦ hq h.1)
    | clientHello version build edition clientVersion =>
      simp [authenticatedAs, Op.helloPeer, hq]
    | _ => rfl
  | remove q => rfl
  | setManifest entries => rfl

theorem checkedAs_ne (hop : op.peer ≠ some p) : checkedAs codec p (m, op) = none := by
  refine checkedAs_none ?_ ?_
  · intro hhello
    exact hop (op.peer_of_helloPeer hhello)
  · intro hidentity
    unfold Op.identityPeer at hidentity
    split at hidentity
    · exact hop hidentity
    · cases hidentity

/-- Authentication sets the id of a session that waits for it; every other way out of `on_auth`
leaves the id alone. -/
theorem aldivineId_onAuth {id : String} {token platform response : Option String} {call : Call}
    {s s' : AdmissionSession} (hs : m.session p = some s)
    (hs' : (m.onAuth p id platform response).1.session p = some s') :
    s'.aldivineId =
      (authenticatedAs p (m, .handle p (.clientAuth id token platform response) call)).getD
        s.aldivineId := by
  have hauth : (∃ s ∈ m.session p, s.state = .waitingAuth ∧ response = some s.nonce) ↔
      s.state = .waitingAuth ∧ response = some s.nonce := by
    simp [hs]
  simp only [authenticatedAs, true_and, hauth]
  simp only [onAuth, hs] at hs'
  split at hs'
  · rename_i hstate
    obtain rfl := Option.some.inj (hs.symm.trans hs')
    rw [if_neg (fun h ↦ hstate h.2.1)]
    rfl
  · split at hs'
    · rename_i hblank
      obtain rfl := Option.some.inj ((session_setState_eq .rejected hs).symm.trans hs')
      rw [if_neg (fun h ↦ by rw [h.1] at hblank; cases hblank)]
      rfl
    · split at hs'
      · rename_i hresponse
        obtain rfl := Option.some.inj ((session_setState_eq .rejected hs).symm.trans hs')
        rw [if_neg (fun h ↦ hresponse h.2.2)]
        rfl
      · rename_i hstate hblank hresponse
        obtain rfl := Option.some.inj ((session_updateSession_eq _ hs).symm.trans hs')
        rw [if_pos ⟨by simpa using hblank, not_not.mp hstate, not_not.mp hresponse⟩]
        rfl

end Calls

section Keeping

/-- The session of `p` holds the account it authenticated as, and once it waits for the queue, the
last check was for this account. -/
structure Kept (codec : UlidCodec) (p : Peer) (s : AdmissionSession) (history : List (Event Peer)) :
    Prop where
  authenticated : (latest (authenticatedAs p) history).join = s.aldivineId
  checked : s.state = .waitingQueue → ∀ a, s.aldivineId = some a →
    latest (checkedAs codec p) history = some (some a)

theorem Kept.bound {s : AdmissionSession} (h : Kept codec p s history)
    (hstate : s.state = .waitingQueue) (hid : s.aldivineId = some a) : Bound codec p a history := by
  refine ⟨?_, h.checked hstate a hid⟩
  have hjoin := h.authenticated
  rw [hid] at hjoin
  exact Option.join_eq_some_iff.mp hjoin

theorem Kept.skip {s : AdmissionSession} {x : Event Peer} (h : Kept codec p s history)
    (hauth : authenticatedAs p x = none) (hcheck : checkedAs codec p x = none) :
    Kept codec p s (history ++ [x]) := by
  refine ⟨?_, ?_⟩
  · rw [latest_concat, hauth, Option.none_or]
    exact h.authenticated
  · rw [latest_concat, hcheck, Option.none_or]
    exact h.checked

end Keeping

section Sessions

variable [ToString Peer] {msg : HandshakeMessage} {call : Call}

theorem aldivineId_kept {m' : AdmissionManager Peer} {reply : List HandshakeMessage}
    {s' : AdmissionSession} (hmove : Move codec m p call msg m' reply)
    (hnone : authenticatedAs p (m, .handle p msg call) = none) (hs' : m'.session p = some s') :
    ∃ s, m.session p = some s ∧ s'.aldivineId = s.aldivineId := by
  have hkept {s t : AdmissionSession} (hs : m.session p = some s) (ht : m'.session p = some t)
      (hid : t.aldivineId = s.aldivineId) :
      ∃ s, m.session p = some s ∧ s'.aldivineId = s.aldivineId := by
    obtain rfl := Option.some.inj (ht.symm.trans hs')
    exact ⟨s, hs, hid⟩
  cases hmove with
  | refuse | entitle | rejoin => exact hkept hs' hs' rfl
  | greet => simp [authenticatedAs, Op.helloPeer] at hnone
  | authFail hs | identityFail hs | identify hs | turnAway hs =>
    exact hkept hs (session_setState_eq _ hs) rfl
  | @authenticate s id token platform hs hw hid =>
    simp [authenticatedAs, hs, hw, hid] at hnone
  | join hs => exact hkept hs (session_setState_eq _ (by exact hs)) rfl
  | enqueue hs => exact hkept hs (session_updateSession_eq _ (by exact hs)) rfl

/-- A call of `p` says which account its session then holds, or leaves the account alone. -/
theorem aldivineId_handle {s' : AdmissionSession}
    (hs' : (m.handle codec p msg call).1.session p = some s') :
    authenticatedAs p (m, .handle p msg call) = some s'.aldivineId ∨
      (authenticatedAs p (m, .handle p msg call) = none ∧
        ∃ s, m.session p = some s ∧ s'.aldivineId = s.aldivineId) := by
  cases hsaid : authenticatedAs p (m, .handle p msg call) with
  | none => exact .inr ⟨rfl, aldivineId_kept (handle_move codec call msg) hsaid hs'⟩
  | some said =>
    refine .inl (congrArg some ?_)
    cases msg with
    | clientAuth id token platform response =>
      obtain ⟨s, hs⟩ : ∃ s, m.session p = some s := by
        simp only [authenticatedAs] at hsaid
        split at hsaid
        · rename_i haccepted
          obtain ⟨s, hs, -⟩ := haccepted.2.2
          exact ⟨s, hs⟩
        · cases hsaid
      rw [aldivineId_onAuth hs hs', hsaid, Option.getD_some]
    | clientHello version build edition clientVersion =>
      have hversion : version = protocolVersion ∧ none = said := by
        simpa [authenticatedAs, Op.helloPeer] using hsaid
      obtain ⟨rfl, rfl⟩ := hversion
      obtain rfl := Option.some.inj (session_onHello_self.symm.trans hs')
      rfl
    | _ => cases hsaid

theorem checked_handle {m' : AdmissionManager Peer} {reply : List HandshakeMessage}
    {s' : AdmissionSession} (hmove : Move codec m p call msg m' reply)
    (hmatching : Matching codec m (.handle p msg call))
    (hkept : ∀ s, m.session p = some s → Kept codec p s history)
    (hs' : m'.session p = some s') (hstate : s'.state = .waitingQueue)
    (hid : s'.aldivineId = some a) :
    latest (checkedAs codec p) (history ++ [(m, .handle p msg call)]) = some (some a) := by
  have hskip {s : AdmissionSession} (hs : m.session p = some s) (hwait : s.state = .waitingQueue)
      (hknown : s.aldivineId = some a) (hhello : (Op.handle p msg call).helloPeer = none)
      (hidentity : (Op.handle p msg call).identityPeer = none) :
      latest (checkedAs codec p) (history ++ [(m, .handle p msg call)]) = some (some a) := by
    have hnone : checkedAs codec p (m, .handle p msg call) = none :=
      checkedAs_none (by simp [hhello]) (by simp [hidentity])
    rw [latest_concat, hnone, Option.none_or]
    exact (hkept s hs).checked hwait a hknown
  have hnot {s : AdmissionSession} (hs : m'.session p = some s) (hne : s.state ≠ .waitingQueue) :
      latest (checkedAs codec p) (history ++ [(m, .handle p msg call)]) = some (some a) := by
    obtain rfl := Option.some.inj (hs.symm.trans hs')
    exact absurd hstate hne
  cases hmove with
  | refuse code reason hhello hidentity =>
    refine hskip hs' hstate hid hhello (hidentity.resolve_right ?_)
    rw [hs']
    exact Option.some_ne_none _
  | greet => exact hnot session_onHello_self (by simp [AdmissionSession.new])
  | authFail hs | identityFail hs | turnAway hs => exact hnot (session_setState_eq _ hs) (by simp)
  | authenticate hs => exact hnot (session_updateSession_eq _ hs) (by simp)
  | join hs => exact hnot (session_setState_eq _ (by exact hs)) (by simp)
  | entitle | rejoin => exact hskip hs' hstate hid rfl rfl
  | enqueue hs =>
    obtain rfl := Option.some.inj ((session_updateSession_eq _ (by exact hs)).symm.trans hs')
    exact hskip hs hstate hid rfl rfl
  | @identify s id entitlement platformId deviceId hs hpassed =>
    obtain rfl := Option.some.inj ((session_setState_eq _ hs).symm.trans hs')
    have hsame : id = a ∧ (AldivinePlayerId.fromString codec id).isSome := by
      refine hmatching hpassed a ?_
      rw [aldivineIdOf, hs]
      exact hid
    obtain ⟨rfl, hulid⟩ := hsame
    have hcheck : checkedAs codec p (m,
        .handle p (.identityResponse id platformId entitlement deviceId) call) =
          some (some id) := by
      simp only [checkedAs, if_pos (And.intro hpassed (presented_of_isSome hulid)), if_true]
    rw [latest_concat, hcheck, Option.some_or]

/-- One call, by any peer, keeps the session of `p` in step with its history. -/
theorem step_kept (hmatching : Matching codec m op)
    (h : ∀ s, m.session p = some s → Kept codec p s history) :
    ∀ s, (step codec m op).1.session p = some s → Kept codec p s (history ++ [(m, op)]) := by
  intro s hs
  by_cases hop : op.peer = some p
  · cases op with
    | handle q msg call =>
      obtain rfl : q = p := Option.some.inj hop
      refine ⟨?_, fun hstate a hid ↦ ?_⟩
      · rw [latest_concat]
        rcases aldivineId_handle hs with hsaid | ⟨hsaid, s₀, hs₀, hid⟩
        · rw [hsaid]
          rfl
        · rw [hsaid, Option.none_or, hid]
          exact (h s₀ hs₀).authenticated
      · exact checked_handle (handle_move codec call msg) hmatching h hs hstate hid
    | remove q =>
      obtain rfl : q = p := Option.some.inj hop
      rw [step, session_remove_self] at hs
      cases hs
    | setManifest entries => cases hop
  · rw [session_step_ne hop] at hs
    exact (h s hs).skip (authenticatedAs_ne hop) (checkedAs_ne hop)

end Sessions

section Entering

theorem waitlist_playingLeave (queue : Queue) (id : String) :
    (queue.playingLeave id).1.waitlist.Sublist queue.waitlist := by
  unfold Queue.playingLeave
  split
  · exact List.Sublist.refl _
  · unfold Queue.promoteFrontFit
    split
    · exact List.Sublist.refl _
    · rename_i hfit
      exact rest_sublist hfit

theorem waitlist_queueLeave (queue : Queue) (id : String) :
    (queue.queueLeave id).1.waitlist.Sublist queue.waitlist := by
  unfold Queue.queueLeave
  split
  · exact List.Sublist.refl _
  · rename_i hfound
    exact rest_sublist hfound

theorem waitlist_remove : (m.remove p).1.queue.waitlist.Sublist m.queue.waitlist := by
  unfold remove
  split
  · exact List.Sublist.refl _
  · split
    · exact List.Sublist.refl _
    · exact (waitlist_queueLeave _ _).trans (waitlist_playingLeave _ _)

variable [ToString Peer]

theorem enters_move {m' : AdmissionManager Peer} {reply : List HandshakeMessage}
    {msg : HandshakeMessage} {call : Call} (hmove : Move codec m p call msg m' reply)
    (h : (m.stateOf p ≠ some .ready ∧ m'.stateOf p = some .ready ∧ m'.aldivineIdOf p = some a) ∨
      (a ∉ m.queue.waitlistIds ∧ a ∈ m'.queue.waitlistIds)) :
    msg = .clientReady ∧ ∃ s, m.session p = some s ∧ s.aldivineId = some a ∧
      s.state ≠ .ready ∧ ∀ reason, (m.queue.join ⟨a, false⟩ call.nowMs).2 ≠ .rejected reason := by
  have hidle (hstate : m'.stateOf p = some .ready → m.stateOf p = some .ready)
      (hqueue : m'.queue = m.queue) : False := by
    rcases h with ⟨hbefore, hafter, -⟩ | ⟨hbefore, hafter⟩
    · exact hbefore (hstate hafter)
    · rw [hqueue] at hafter
      exact hbefore hafter
  have hstate {s : AdmissionSession} (hs : m'.session p = some s) (hne : s.state ≠ .ready) :
      m'.stateOf p = some .ready → m.stateOf p = some .ready := by
    intro hready
    rw [stateOf, hs, Option.map_some] at hready
    exact absurd (Option.some.inj hready) hne
  cases hmove with
  | refuse | entitle | rejoin => exact (hidle id rfl).elim
  | greet =>
    exact (hidle (hstate session_onHello_self (by simp [AdmissionSession.new])) rfl).elim
  | authFail hs | identityFail hs | identify hs | turnAway hs =>
    exact (hidle (hstate (session_setState_eq _ hs) (by simp)) (setState_queue _)).elim
  | authenticate hs =>
    exact (hidle (hstate (session_updateSession_eq _ hs) (by simp)) (updateSession_queue _)).elim
  | @join s id hs hid hr hadm =>
    rcases Queue.join_cases m.queue ⟨id, false⟩ call.nowMs with ⟨-, he⟩ | ⟨hnot, -⟩ | ⟨hnot, -⟩
    · rcases h with ⟨-, -, hknown⟩ | ⟨hbefore, hafter⟩
      · rw [aldivineIdOf, session_setState_eq _ (by exact hs), Option.bind_some] at hknown
        obtain rfl := Option.some.inj (hid.symm.trans hknown)
        refine ⟨rfl, s, hs, hid, hr, ?_⟩
        rw [he]
        intro reason hrejected
        cases hrejected
      · rw [setState_queue, withQueue, he] at hafter
        exact absurd hafter hbefore
    · exact absurd hadm hnot
    · exact absurd hadm hnot
  | @enqueue s id hs hid hr hb hadm hp hw hjoin =>
    rcases h with ⟨-, hafter, -⟩ | ⟨hbefore, hafter⟩
    · rw [stateOf, session_updateSession_eq _ (by exact hs), Option.map_some] at hafter
      exact absurd (Option.some.inj hafter) hr
    · rw [updateSession_queue, withQueue, Queue.waitlistIds, List.map_append, List.mem_append,
        List.map_singleton, List.mem_singleton] at hafter
      obtain rfl : a = id := hafter.resolve_left hbefore
      refine ⟨rfl, s, hs, hid, hr, ?_⟩
      intro reason hrejected
      rcases Queue.join_cases m.queue ⟨a, false⟩ call.nowMs with
        ⟨hyes, -⟩ | ⟨-, -, -, -, -, he⟩ | ⟨-, reason', he⟩
      · exact hadm hyes
      · rw [he] at hrejected
        cases hrejected
      · rw [he] at hjoin
        have hlen := congrArg (fun queue ↦ queue.waitlist.length) hjoin
        simp at hlen

theorem enters_ready (h : Enters codec p a (m, op)) :
    ∃ call s, op = .handle p .clientReady call ∧ m.session p = some s ∧ s.aldivineId = some a ∧
      s.state ≠ .ready ∧ ∀ reason, (m.queue.join ⟨a, false⟩ call.nowMs).2 ≠ .rejected reason := by
  have hself : op.peer = some p := by
    by_contra hop
    rcases h with ⟨hbefore, hafter, -⟩ | ⟨hop', -⟩
    · rw [stateOf, session_step_ne hop] at hafter
      exact hbefore hafter
    · exact hop hop'
  cases op with
  | handle q msg call =>
    obtain rfl : q = p := Option.some.inj hself
    obtain ⟨rfl, s, hs⟩ := enters_move (handle_move codec call msg) (h.imp_right And.right)
    exact ⟨call, s, rfl, hs⟩
  | remove q =>
    obtain rfl : q = p := Option.some.inj hself
    rcases h with ⟨-, hafter, -⟩ | ⟨-, hbefore, hafter⟩
    · rw [step, stateOf, session_remove_self] at hafter
      cases hafter
    · exact absurd ((waitlist_remove.map _).subset hafter) hbefore
  | setManifest entries => cases hself

end Entering

section Runs

variable [ToString Peer]

theorem step_bound (hmatching : Matching codec m op)
    (hkept : ∀ s, m.session p = some s → Kept codec p s history)
    (henters : Enters codec p a (m, op)) : Bound codec p a history := by
  obtain ⟨call, s, rfl, hs, hid, hready, htakes⟩ := enters_ready henters
  have hwaits : s.state = .waitingQueue :=
    (hmatching s hs a hid htakes).resolve_right hready
  exact (hkept s hs).bound hwaits hid

theorem kept_run (name : String) (maxPlayers : UInt32) (req : IdentityRequirements)
    (ops : List (Op Peer))
    (hmatching : ∀ x ∈ trace (step codec) (.new name maxPlayers req) ops, Matching codec x.1 x.2) :
    ∀ s, (run (step codec) (.new name maxPlayers req) ops).session p = some s →
      Kept codec p s (trace (step codec) (.new name maxPlayers req) ops) := by
  refine invariant_trace
    (I := fun m history ↦ ∀ s, m.session p = some s → Kept codec p s history)
    (P := Matching codec) (fun m history op h hmatching ↦ step_kept hmatching h) ?_ ops hmatching
  intro s hs
  cases hs

/-- In every run whose calls are matching, a peer becomes ready, or enters the waitlist, only under
the account that it authenticated as and that it was last checked as. -/
theorem entered_bound (codec : UlidCodec) (name : String) (maxPlayers : UInt32)
    (req : IdentityRequirements) (ops : List (Op Peer))
    (hmatching : ∀ x ∈ trace (step codec) (.new name maxPlayers req) ops, Matching codec x.1 x.2)
    (before : List (Op Peer)) (op : Op Peer) (hbefore : before ++ [op] <+: ops) (p : Peer)
    (a : String)
    (henters : Enters codec p a (run (step codec) (.new name maxPlayers req) before, op)) :
    Bound codec p a (trace (step codec) (.new name maxPlayers req) before) := by
  obtain ⟨after, rfl⟩ := hbefore
  rw [trace_append, trace_concat, List.forall_mem_append, List.forall_mem_append,
    List.forall_mem_singleton] at hmatching
  exact step_bound hmatching.1.2 (kept_run name maxPlayers req before hmatching.1.1) henters

end Runs

/-- The calls before its `ClientReady` of a peer that takes every step. -/
def checkedRun : List (Op String) :=
  [.hello "127.0.0.1:40001" (.atTime 0),
    .auth "127.0.0.1:40001" "01ARZ3NDEKTSV4RRFFQ69G5FAV" "n-1-127.0.0.1:40001" (.atTime 1),
    .identity "127.0.0.1:40001" "01ARZ3NDEKTSV4RRFFQ69G5FAV" none (.atTime 2),
    .entitlement "127.0.0.1:40001" (.atTime 3)]

theorem checkedRun_bound :
    Bound .crockford "127.0.0.1:40001" "01ARZ3NDEKTSV4RRFFQ69G5FAV"
      (trace (step .crockford) (.new "test" 64 .lenient) checkedRun) := by
  refine entered_bound .crockford "test" 64 .lenient
    (checkedRun ++ [.ready "127.0.0.1:40001" (.atTime 4)]) ?_ checkedRun
    (.ready "127.0.0.1:40001" (.atTime 4)) (List.prefix_refl _) "127.0.0.1:40001"
    "01ARZ3NDEKTSV4RRFFQ69G5FAV" (.inl ⟨by decide, by decide, by decide⟩)
  have hknown : (run (step .crockford) (.new "test" 64 .lenient) (checkedRun.take 2)).aldivineIdOf
      "127.0.0.1:40001" = some "01ARZ3NDEKTSV4RRFFQ69G5FAV" := by decide
  have hwaits : (run (step .crockford) (.new "test" 64 .lenient) checkedRun).stateOf
      "127.0.0.1:40001" = some .waitingQueue := by decide
  simp only [checkedRun, List.cons_append, List.nil_append, trace, List.forall_mem_cons]
  refine ⟨trivial, trivial, ?_, trivial, ?_, List.forall_mem_nil _⟩
  · intro _ a ha
    exact ⟨Option.some.inj (hknown.symm.trans ha), by decide⟩
  · intro s hs a _ _
    have hstate := congrArg (Option.map (·.state)) hs
    exact .inl (Option.some.inj (hstate.symm.trans hwaits))

def borrowedRun : List (Op String) :=
  [.hello "127.0.0.1:40001" (.atTime 0),
    .auth "127.0.0.1:40001" "01ARZ3NDEKTSV4RRFFQ69G5FAV" "n-1-127.0.0.1:40001" (.atTime 1),
    .identity "127.0.0.1:40001" "01BX5ZZKBKACTAV9WEVGEMMVRZ" none (.atTime 2)]

theorem borrowed_not_bound :
    Enters .crockford "127.0.0.1:40001" "01ARZ3NDEKTSV4RRFFQ69G5FAV"
        (run (step .crockford) (.new "test" 64 .lenient) borrowedRun,
          .ready "127.0.0.1:40001" (.atTime 3)) ∧
      ¬Bound .crockford "127.0.0.1:40001" "01ARZ3NDEKTSV4RRFFQ69G5FAV"
        (trace (step .crockford) (.new "test" 64 .lenient) borrowedRun) := by
  refine ⟨.inl ⟨by decide, by decide, by decide⟩, ?_⟩
  intro hbound
  have hchecked : latest (checkedAs .crockford "127.0.0.1:40001")
      (trace (step .crockford) (.new "test" 64 .lenient) borrowedRun) =
        some (some "01BX5ZZKBKACTAV9WEVGEMMVRZ") := by decide
  exact absurd (hchecked.symm.trans hbound.checked) (by decide)

end Aldivine.Admission.Binding
