import Aldivine.Admission.Moves
import Aldivine.Foundation.Execution

namespace Aldivine.Admission.Rejection

open Foundation.Text Foundation.Execution Core.PlayerId Identity.Policy AdmissionQueue.Model
open Handshake Manager Manager.AdmissionManager Moves

variable {Peer : Type} [DecidableEq Peer]

/-- The calls that replace or drop `p`'s session: a fresh hello, or its removal. -/
def restarts (p : Peer) (op : Op Peer) : Bool := op.helloPeer = some p ∨ op.removedPeer = some p

/-- The replies that let a peer get further. -/
def grants : HandshakeMessage → Bool
  | .queueAdmitted | .serverReady _ | .deferralDone | .authResult true _ => true
  | _ => false

def StaysRejected [ToString Peer] (codec : UlidCodec) (m : AdmissionManager Peer) (p : Peer)
    (op : Op Peer) : Prop :=
  (step codec m op).1.stateOf p = some .rejected ∧
    ∀ msg call, op = .handle p msg call → ∀ reply ∈ (step codec m op).2, grants reply = false

/-- The two messages `on_identity` and `on_ready` answer without looking at the session's state:
an identity that passes the policy, and a ready that the queue can admit. -/
def Reopens (codec : UlidCodec) (m : AdmissionManager Peer) (p : Peer) (op : Op Peer) : Prop :=
  (∃ id platformId entitlement deviceId call,
    op = .handle p (.identityResponse id platformId entitlement deviceId) call ∧
    Identified codec m.identityReq call id deviceId) ∨
  (∃ id call, op = .handle p .clientReady call ∧ m.aldivineIdOf p = some id ∧
    m.queue.Admits ⟨id, false⟩)

variable [ToString Peer] {codec : UlidCodec} {m : AdmissionManager Peer} {p : Peer}
  {s : AdmissionSession}

theorem not_staysRejected_of_reopens {op : Op Peer} (hs : m.session p = some s)
    (hr : s.state = .rejected) (h : Reopens codec m p op) : ¬StaysRejected codec m p op := by
  intro hparts
  obtain ⟨hstate, -⟩ := hparts
  rcases h with ⟨id, platformId, entitlement, deviceId, call, rfl, hid⟩ | ⟨id, call, rfl, hid, hadm⟩
  · simp only [step, handle, onIdentity_of_identified hs hid, stateOf,
      session_setState_eq .waitingQueue hs, Option.map_some] at hstate
    cases hstate
  · have hid' : s.aldivineId = some id := by simpa [aldivineIdOf, hs] using hid
    have hready : (step codec m (.handle p .clientReady call)).1 =
        (withQueue m _).setState p .ready :=
      congrArg Prod.fst (onReady_of_admits hs hid' (by simp [hr]) hadm)
    rw [hready, stateOf, session_setState_eq .ready (by exact hs)] at hstate
    cases hstate

theorem staysRejected_self {msg : HandshakeMessage} {call : Call} (hs : m.session p = some s)
    (hr : s.state = .rejected) (hrestart : restarts p (.handle p msg call) = false)
    (h : ¬Reopens codec m p (.handle p msg call)) :
    StaysRejected codec m p (.handle p msg call) := by
  have hold : m.stateOf p = some .rejected := by simp [stateOf, hs, hr]
  have hset {t : AdmissionSession} (ht : m.session p = some t) :
      (m.setState p .rejected).stateOf p = some .rejected := by
    rw [stateOf, session_setState_eq .rejected ht, Option.map_some]
  suffices hmove : ∀ m' reply, Move codec m p call msg m' reply →
      m'.stateOf p = some .rejected ∧ ∀ r ∈ reply, grants r = false by
    obtain ⟨hstate, hreply⟩ := hmove _ _ (handle_move codec call msg)
    exact ⟨hstate, fun _ _ _ r hmem ↦ hreply r hmem⟩
  intro m' reply hmove
  cases hmove with
  | refuse => exact ⟨hold, by simp [grants]⟩
  | greet => simp [restarts, Op.helloPeer] at hrestart
  | authFail ht | identityFail ht => exact ⟨hset ht, by simp [grants]⟩
  | authenticate ht hw =>
    rw [hs, Option.some.injEq] at ht
    simp [← ht, hr] at hw
  | @identify t id entitlement platformId deviceId ht hid =>
    exact absurd (.inl ⟨id, platformId, entitlement, deviceId, call, rfl, hid⟩) h
  | entitle => exact ⟨hold, by simp [grants]⟩
  | rejoin ht hready =>
    rw [hs, Option.some.injEq] at ht
    simp [← ht, hr] at hready
  | @join t id ht hid _ hadm =>
    exact absurd (.inr ⟨id, call, rfl, by simp [aldivineIdOf, ht, hid], hadm⟩) h
  | @enqueue t id ht hid hready hb hadm hp hw =>
    rw [hs, Option.some.injEq] at ht
    subst ht
    refine ⟨?_, by simp [grants]⟩
    rw [stateOf, session_updateSession_eq _ (by exact hs), Option.map_some, hr]
  | turnAway ht hid hready hadm reason =>
    exact ⟨hset ht, by cases reason <;> simp [grants, joinRefusal]⟩

theorem staysRejected_other {op : Op Peer} (hs : m.session p = some s)
    (hr : s.state = .rejected) (hrestart : restarts p op = false)
    (hother : ∀ msg call, op ≠ .handle p msg call) : StaysRejected codec m p op := by
  refine ⟨?_, fun msg call hop ↦ absurd hop (hother msg call)⟩
  have hpeer : op.peer ≠ some p := by
    cases op with
    | handle q msg call =>
      intro heq
      exact hother msg call (by rw [Option.some.inj heq])
    | remove q => simpa [Op.peer, restarts, Op.helloPeer, Op.removedPeer] using hrestart
    | setManifest entries => rintro ⟨⟩
  have hkeep : (step codec m op).1.session p = m.session p := session_step_ne hpeer
  rw [stateOf, hkeep, hs, Option.map_some, hr]

/-- A rejected session stays rejected under a call exactly when the call is neither of the two
that the handlers let through unguarded. -/
theorem staysRejected_iff {op : Op Peer} (hr : m.stateOf p = some .rejected)
    (hrestart : restarts p op = false) :
    StaysRejected codec m p op ↔ ¬Reopens codec m p op := by
  obtain ⟨s, hs, hstate⟩ := Option.map_eq_some_iff.mp hr
  constructor
  · exact fun h hopen ↦ not_staysRejected_of_reopens hs hstate hopen h
  · intro h
    by_cases hself : ∃ msg call, op = .handle p msg call
    · obtain ⟨msg, call, rfl⟩ := hself
      exact staysRejected_self hs hstate hrestart h
    · exact staysRejected_other hs hstate hrestart (fun msg call hop ↦ hself ⟨msg, call, hop⟩)

theorem staysRejected_trace_iff (after : List (Op Peer)) (hr : m.stateOf p = some .rejected)
    (hrestart : ∀ op ∈ after, restarts p op = false) :
    (∀ x ∈ trace (step codec) m after, StaysRejected codec x.1 p x.2) ↔
      ∀ x ∈ trace (step codec) m after, ¬Reopens codec x.1 p x.2 := by
  induction after generalizing m with
  | nil => simp [trace]
  | cons op after ih =>
    obtain ⟨hop, hafter⟩ := List.forall_mem_cons.mp hrestart
    have hstep : StaysRejected codec m p op ↔ _ := staysRejected_iff hr hop
    simp only [trace, List.forall_mem_cons]
    constructor
    · intro h
      exact ⟨hstep.mp h.1, (ih h.1.1 hafter).mp h.2⟩
    · intro h
      have hnow := hstep.mpr h.1
      exact ⟨hnow, (ih hnow.1 hafter).mpr h.2⟩

/-- Once `p` is rejected, it stays rejected and is granted nothing until it restarts, exactly when
no call on the way is one of the two unguarded ones. -/
theorem rejected_absorbing_iff (codec : UlidCodec) (name : String) (maxPlayers : UInt32)
    (req : IdentityRequirements) (before after : List (Op Peer)) (p : Peer)
    (m : AdmissionManager Peer) (hm : m = run (step codec) (.new name maxPlayers req) before)
    (hr : m.stateOf p = some .rejected) (hrestart : ∀ op ∈ after, restarts p op = false) :
    (∀ x ∈ trace (step codec) m after, StaysRejected codec x.1 p x.2) ↔
      ∀ x ∈ trace (step codec) m after, ¬Reopens codec x.1 p x.2 := by
  subst hm
  exact staysRejected_trace_iff after hr hrestart

def failedChallengeRun : List (Op String) :=
  [.hello "127.0.0.1:40001" (.atTime 0), .auth "127.0.0.1:40001" "alice" "wrong" (.atTime 1)]

def failedChallenge : AdmissionManager String :=
  run (step .zero) (.new "test" 64 .lenient) failedChallengeRun

theorem failedChallenge_stays_rejected :
    failedChallenge.stateOf "127.0.0.1:40001" = some .rejected ∧
    ∀ x ∈ trace (step .zero) failedChallenge
        [.entitlement "127.0.0.1:40001" (.atTime 2), .ready "127.0.0.1:40001" (.atTime 3)],
      StaysRejected .zero x.1 "127.0.0.1:40001" x.2 := by
  have hr : failedChallenge.stateOf "127.0.0.1:40001" = some .rejected := by decide
  refine ⟨hr, (rejected_absorbing_iff .zero "test" 64 .lenient failedChallengeRun _ _
    failedChallenge rfl hr (by decide)).mpr ?_⟩
  have hnone : ∀ x ∈ trace (step .zero) failedChallenge
      [.entitlement "127.0.0.1:40001" (.atTime 2), .ready "127.0.0.1:40001" (.atTime 3)],
      x.2.identityPeer = none ∧ x.1.aldivineIdOf "127.0.0.1:40001" = none := by decide
  rintro x hx (⟨id, platformId, entitlement, deviceId, call, hop, -⟩ | ⟨id, call, -, hid, -⟩)
  · have := (hnone x hx).1
    rw [hop] at this
    cases this
  · rw [(hnone x hx).2] at hid
    cases hid

/-- An identity response takes a rejected session to the queue and is answered `DeferralDone`. -/
theorem failedChallenge_reopened :
    failedChallenge.stateOf "127.0.0.1:40001" = some .rejected ∧
    restarts "127.0.0.1:40001" (.identity "127.0.0.1:40001" "alice" none (.atTime 2)) = false ∧
    (step .zero failedChallenge (.identity "127.0.0.1:40001" "alice" none (.atTime 2))).1.stateOf
      "127.0.0.1:40001" = some .waitingQueue ∧
    .deferralDone ∈
      (step .zero failedChallenge (.identity "127.0.0.1:40001" "alice" none (.atTime 2))).2 ∧
    ¬StaysRejected .zero failedChallenge "127.0.0.1:40001"
      (.identity "127.0.0.1:40001" "alice" none (.atTime 2)) := by
  refine ⟨by decide, by decide, by decide, by decide, fun h ↦ ?_⟩
  exact absurd h.1 (by decide)

end Aldivine.Admission.Rejection
