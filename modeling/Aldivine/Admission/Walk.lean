import Aldivine.Admission.Moves
import Aldivine.Foundation.Execution

namespace Aldivine.Admission.Walk

open Foundation.Text Foundation.Execution Core.PlayerId Identity.Policy AdmissionQueue.Model
open Handshake Manager Manager.AdmissionManager Moves

variable {Peer : Type} [DecidableEq Peer]

abbrev Event (Peer : Type) := AdmissionManager Peer × Op Peer

def acceptedHello (p : Peer) (x : Event Peer) : Bool := x.2.helloPeer = some p

def AnsweredChallenge (p : Peer) (x : Event Peer) : Prop :=
  ∃ s id token platform call, x.1.session p = some s ∧ s.state = .waitingAuth ∧
    x.2 = .handle p (.clientAuth id token platform (some s.nonce)) call

/-- `p` presented an identity that the policy passed and the deferral gates admitted. -/
def PassedIdentity (codec : UlidCodec) (p : Peer) (x : Event Peer) : Prop :=
  ∃ id platformId entitlement deviceId call,
    x.2 = .handle p (.identityResponse id platformId entitlement deviceId) call ∧
    Identified codec x.1.identityReq call id deviceId

/-- A `ClientReady` that the queue would admit at once comes from a session that waits for the
queue (or is ready already). `on_ready` does not check this. -/
def Guarded (m : AdmissionManager Peer) (op : Op Peer) : Prop :=
  ∀ p ∈ op.readyPeer, ∀ s ∈ m.session p, ∀ id ∈ s.aldivineId,
    m.queue.Admits ⟨id, false⟩ → s.state = .waitingQueue ∨ s.state = .ready

instance (m : AdmissionManager Peer) (op : Op Peer) : Decidable (Guarded m op) :=
  inferInstanceAs (Decidable (∀ p ∈ op.readyPeer, ∀ s ∈ m.session p, ∀ id ∈ s.aldivineId,
    m.queue.Admits ⟨id, false⟩ → s.state = .waitingQueue ∨ s.state = .ready))

variable {p : Peer}

theorem acceptedHello_ne {m : AdmissionManager Peer} {op : Op Peer} (hop : op.peer ≠ some p) :
    acceptedHello p (m, op) = false := by
  have hhello : op.helloPeer ≠ some p := fun heq ↦ hop (op.peer_of_helloPeer heq)
  simp [acceptedHello, hhello]

variable [ToString Peer]

def BecameReady (codec : UlidCodec) (p : Peer) (x : Event Peer) : Prop :=
  ∃ call, x.2 = .handle p .clientReady call ∧ x.1.stateOf p ≠ some .ready ∧
    (step codec x.1 x.2).1.stateOf p = some .ready

/-- Since its last accepted hello `p` took the documented steps in the documented order. -/
def Walked (codec : UlidCodec) (p : Peer) (history : List (Event Peer)) : Prop :=
  (∃ x ∈ history, acceptedHello p x = true) ∧
    Reached (acceptedHello p) [AnsweredChallenge p, PassedIdentity codec p, BecameReady codec p]
      history

structure Progress (codec : UlidCodec) (p : Peer) (history : List (Event Peer))
    (s : AdmissionSession) : Prop where
  hello : ∃ x ∈ history, acceptedHello p x = true
  fresh : s.state = .waitingAuth → s.aldivineId = none
  known : s.aldivineId ≠ none → Reached (acceptedHello p) [AnsweredChallenge p] history
  waiting : s.state = .waitingQueue → s.aldivineId ≠ none →
    Reached (acceptedHello p) [AnsweredChallenge p, PassedIdentity codec p] history
  ready : s.state = .ready →
    Reached (acceptedHello p) [AnsweredChallenge p, PassedIdentity codec p, BecameReady codec p]
      history
  readyId : s.state = .ready → s.aldivineId ≠ none

variable {codec : UlidCodec} {history : List (Event Peer)}

theorem Progress.skip {s : AdmissionSession} {x : Event Peer} (h : Progress codec p history s)
    (hx : acceptedHello p x = false) : Progress codec p (history ++ [x]) s where
  hello := by
    obtain ⟨y, hy, hhello⟩ := h.hello
    exact ⟨y, List.mem_append_left _ hy, hhello⟩
  fresh := h.fresh
  known hk := (h.known hk).skip hx
  waiting hw hk := (h.waiting hw hk).skip hx
  ready hr := (h.ready hr).skip hx
  readyId := h.readyId

theorem Progress.reject {s : AdmissionSession} (h : Progress codec p history s) :
    Progress codec p history { s with state := .rejected } where
  hello := h.hello
  fresh := nofun
  known := h.known
  waiting := nofun
  ready := nofun
  readyId := nofun

theorem progress_handle_self {m : AdmissionManager Peer} {msg : HandshakeMessage} {call : Call}
    (h : ∀ s, m.session p = some s → Progress codec p history s)
    (hguard : Guarded m (.handle p msg call)) :
    ∀ s, (m.handle codec p msg call).1.session p = some s →
      Progress codec p (history ++ [(m, .handle p msg call)]) s := by
  obtain ⟨m', reply, he, hmove⟩ := exists_move codec call m p msg
  rw [he]
  intro s' hs'
  cases hmove with
  | refuse code reason hhello =>
    exact (h s' hs').skip (by simp [acceptedHello, hhello])
  | greet build edition clientVersion =>
    obtain rfl := Option.some.inj (session_onHello_self.symm.trans hs')
    exact ⟨⟨_, List.mem_append_right _ List.mem_cons_self, by simp [acceptedHello, Op.helloPeer]⟩,
      fun _ ↦ rfl, fun hk ↦ absurd rfl hk, (fun hw ↦ by cases hw), (fun hr ↦ by cases hr),
      (fun hr ↦ by cases hr)⟩
  | authFail hs hw =>
    obtain rfl := Option.some.inj ((session_setState_eq _ hs).symm.trans hs')
    exact (h _ hs).reject.skip rfl
  | @authenticate s id token platform hs hw hid =>
    obtain rfl := Option.some.inj ((session_updateSession_eq _ hs).symm.trans hs')
    let x : Event Peer := (m, .handle p (.clientAuth id token platform (some s.nonce)) call)
    have hauth : AnsweredChallenge p x := ⟨s, id, token, platform, call, hs, hw, rfl⟩
    have hskip := (h s hs).skip (x := x) rfl
    exact ⟨hskip.hello, (fun hf ↦ by cases hf), fun _ ↦ (reached_nil history).next rfl hauth,
      (fun hw ↦ by cases hw), (fun hr ↦ by cases hr), (fun hr ↦ by cases hr)⟩
  | identityFail hs hid =>
    obtain rfl := Option.some.inj ((session_setState_eq _ hs).symm.trans hs')
    exact (h _ hs).reject.skip rfl
  | @identify s id entitlement platformId deviceId hs hid =>
    obtain rfl := Option.some.inj ((session_setState_eq _ hs).symm.trans hs')
    let x : Event Peer := (m, .handle p (.identityResponse id platformId entitlement deviceId) call)
    have hpass : PassedIdentity codec p x :=
      ⟨id, platformId, entitlement, deviceId, call, rfl, hid⟩
    have hskip := (h s hs).skip (x := x) rfl
    exact ⟨hskip.hello, (fun hf ↦ by cases hf), hskip.known,
      fun _ hk ↦ ((h s hs).known hk).next rfl hpass, (fun hr ↦ by cases hr), (fun hr ↦ by cases hr)⟩
  | entitle | rejoin => exact (h s' hs').skip rfl
  | @join s id hs hid hr hadm =>
    obtain rfl := Option.some.inj ((session_setState_eq _ (by exact hs)).symm.trans hs')
    let x : Event Peer := (m, .handle p .clientReady call)
    have hready : BecameReady codec p x := by
      refine ⟨call, rfl, by simpa [x, stateOf, hs] using hr, ?_⟩
      have hafter : (step codec x.1 x.2).1.session p = some { s with state := .ready } := by
        simp only [x, step, he, hs']
      simp only [stateOf, hafter, Option.map_some]
    have hk : s.aldivineId ≠ none := by simp [hid]
    have hw : s.state = .waitingQueue := (hguard p rfl s hs id hid hadm).resolve_right hr
    have hskip := (h s hs).skip (x := x) rfl
    exact ⟨hskip.hello, (fun hf ↦ by cases hf), fun _ ↦ hskip.known hk, (fun hw ↦ by cases hw),
      fun _ ↦ ((h s hs).waiting hw hk).next rfl hready, fun _ ↦ hk⟩
  | @enqueue s id hs hid hr hb hadm hp hw =>
    obtain rfl := Option.some.inj ((session_updateSession_eq _ (by exact hs)).symm.trans hs')
    have hskip := (h s hs).skip (x := (m, .handle p .clientReady call)) rfl
    exact ⟨hskip.hello, hskip.fresh, hskip.known, hskip.waiting, hskip.ready, hskip.readyId⟩
  | turnAway hs hid hr hadm reason =>
    obtain rfl := Option.some.inj ((session_setState_eq _ hs).symm.trans hs')
    exact (h _ hs).reject.skip rfl

/-- One call, by any peer, keeps `p`'s session in step with `p`'s history. -/
theorem progress_step {m : AdmissionManager Peer} {op : Op Peer}
    (h : ∀ s, m.session p = some s → Progress codec p history s) (hguard : Guarded m op) :
    ∀ s, (step codec m op).1.session p = some s → Progress codec p (history ++ [(m, op)]) s := by
  intro s hs
  by_cases hop : op.peer = some p
  · cases op with
    | handle q msg call =>
      obtain rfl : q = p := Option.some.inj hop
      exact progress_handle_self h hguard s hs
    | remove q =>
      obtain rfl : q = p := Option.some.inj hop
      rw [step, session_remove_self] at hs
      cases hs
    | setManifest entries => cases hop
  · rw [session_step_ne hop] at hs
    exact (h s hs).skip (acceptedHello_ne hop)

theorem progress_run (name : String) (maxPlayers : UInt32) (req : IdentityRequirements)
    (ops : List (Op Peer))
    (hguard : ∀ x ∈ trace (step codec) (.new name maxPlayers req) ops, Guarded x.1 x.2) :
    ∀ s, (run (step codec) (.new name maxPlayers req) ops).session p = some s →
      Progress codec p (trace (step codec) (.new name maxPlayers req) ops) s := by
  induction ops using List.reverseRecOn with
  | nil =>
    intro s hs
    cases hs
  | append_singleton ops op ih =>
    rw [trace_concat] at hguard ⊢
    rw [run_concat]
    refine progress_step (ih (fun x hx ↦ hguard x (List.mem_append_left _ hx))) ?_
    exact hguard _ (List.mem_append_right _ List.mem_cons_self)

/-- In every run whose `ClientReady`s are guarded, a peer is `Ready`, and is told
`ServerReady { world_join: true }`, only after walking every earlier step in order. -/
theorem ready_walked (codec : UlidCodec) (name : String) (maxPlayers : UInt32)
    (req : IdentityRequirements) (ops : List (Op Peer))
    (hguard : ∀ x ∈ trace (step codec) (.new name maxPlayers req) ops, Guarded x.1 x.2) :
    (∀ p, (run (step codec) (.new name maxPlayers req) ops).stateOf p = some .ready →
      Walked codec p (trace (step codec) (.new name maxPlayers req) ops)) ∧
    (∀ before p msg call after, ops = before ++ .handle p msg call :: after →
      .serverReady true ∈ (step codec (run (step codec) (.new name maxPlayers req) before)
        (.handle p msg call)).2 →
      Walked codec p
        (trace (step codec) (.new name maxPlayers req) (before ++ [.handle p msg call]))) := by
  have hwalk (l : List (Op Peer)) (p : Peer)
      (hl : ∀ x ∈ trace (step codec) (.new name maxPlayers req) l, Guarded x.1 x.2)
      (hr : (run (step codec) (.new name maxPlayers req) l).stateOf p = some .ready) :
      Walked codec p (trace (step codec) (.new name maxPlayers req) l) := by
    obtain ⟨s, hs, hstate⟩ := Option.map_eq_some_iff.mp hr
    have hp := progress_run name maxPlayers req l hl s hs
    exact ⟨hp.hello, hp.ready hstate⟩
  refine ⟨fun p hr ↦ hwalk ops p hguard hr, ?_⟩
  rintro before p msg call after rfl hreply
  have hsplit : before ++ .handle p msg call :: after =
      before ++ [.handle p msg call] ++ after := by
    simp
  rw [hsplit, trace_append] at hguard
  refine hwalk _ p (fun x hx ↦ hguard x (List.mem_append_left _ hx)) ?_
  rw [run_concat]
  exact (handle_move codec call msg).ready_of_serverReady hreply

def shortcutRun : List (Op String) :=
  [.hello "127.0.0.1:40001" (.atTime 0),
    .auth "127.0.0.1:40001" "alice" "n-1-127.0.0.1:40001" (.atTime 1),
    .ready "127.0.0.1:40001" (.atTime 2)]

def fullRun : List (Op String) :=
  [.hello "127.0.0.1:40001" (.atTime 0),
    .auth "127.0.0.1:40001" "alice" "n-1-127.0.0.1:40001" (.atTime 1),
    .identity "127.0.0.1:40001" "alice" none (.atTime 2),
    .entitlement "127.0.0.1:40001" (.atTime 3),
    .ready "127.0.0.1:40001" (.atTime 4)]

theorem fullRun_walked :
    (run (step .zero) (.new "test" 64 .lenient) fullRun).stateOf "127.0.0.1:40001" = some .ready ∧
    Walked .zero "127.0.0.1:40001" (trace (step .zero) (.new "test" 64 .lenient) fullRun) := by
  have hr : (run (step .zero) (.new "test" 64 .lenient) fullRun).stateOf "127.0.0.1:40001" =
      some .ready := by decide
  exact ⟨hr, (ready_walked .zero "test" 64 .lenient fullRun (by decide)).1 _ hr⟩

/-- Hello, challenge, ready: the identity step is skipped. -/
theorem shortcutRun_not_walked :
    (run (step .zero) (.new "test" 64 .lenient) shortcutRun).stateOf "127.0.0.1:40001" =
      some .ready ∧
    ¬Walked .zero "127.0.0.1:40001"
      (trace (step .zero) (.new "test" 64 .lenient) shortcutRun) := by
  refine ⟨by decide, ?_⟩
  intro hparts
  obtain ⟨-, events, hall, hsub⟩ := hparts
  obtain ⟨x, hx, id, platformId, entitlement, deviceId, call, hop, -⟩ :
      ∃ x ∈ events, PassedIdentity .zero "127.0.0.1:40001" x := by
    cases hall with
    | cons _ hall =>
      cases hall with
      | cons hi _ => exact ⟨_, List.mem_cons_of_mem _ List.mem_cons_self, hi⟩
  have hmem := (List.rtakeWhile_suffix _ _).subset (hsub.subset hx)
  obtain ⟨before, after, he, -⟩ := mem_trace hmem
  have hin : x.2 ∈ shortcutRun := by
    rw [he]
    exact List.mem_append_right _ List.mem_cons_self
  rw [hop] at hin
  simp [shortcutRun, Op.hello, Op.auth, Op.ready] at hin

end Aldivine.Admission.Walk
