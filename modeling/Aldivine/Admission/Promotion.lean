import Aldivine.Admission.Moves
import Aldivine.Foundation.Execution

namespace Aldivine.Admission.Promotion

open Foundation.Text Foundation.Execution Core.PlayerId Identity.Policy
open AdmissionQueue.Model AdmissionQueue.Invariants Handshake Manager Manager.AdmissionManager Moves

variable {Peer : Type} [DecidableEq Peer] [ToString Peer]

/-- During the run some peer's removal moved this id from the waitlist into the playing set. -/
def Promoted (codec : UlidCodec) (m : AdmissionManager Peer) (ops : List (Op Peer))
    (id : String) : Prop :=
  ∃ x ∈ trace (step codec) m ops, x.2.removedPeer.isSome = true ∧ id ∈ x.1.queue.waitlistIds ∧
    id ∈ (step codec x.1 x.2).1.queue.playingIds

instance (codec : UlidCodec) (m : AdmissionManager Peer) (ops : List (Op Peer)) (id : String) :
    Decidable (Promoted codec m ops id) :=
  inferInstanceAs (Decidable (∃ x ∈ trace (step codec) m ops, _ ∧ _ ∧ _))

def JoinsWorld (codec : UlidCodec) (m : AdmissionManager Peer) (p : Peer) (call : Call) : Prop :=
  .serverReady true ∈ (step codec m (.ready p call)).2 ∧
    (step codec m (.ready p call)).1.stateOf p = some .ready

/-- The next `ClientReady` costs the peer neither its session nor its waitlist place. -/
def KeepsPlace (codec : UlidCodec) (m : AdmissionManager Peer) (p : Peer) (id : String)
    (call : Call) : Prop :=
  (step codec m (.ready p call)).1.session p = m.session p ∧
    (step codec m (.ready p call)).1.queue.position id = m.queue.position id

variable {codec : UlidCodec} {m : AdmissionManager Peer} {p : Peer} {call : Call}
  {s : AdmissionSession} {id : String}

theorem session_run_quiet (codec : UlidCodec) (ops : List (Op Peer))
    (hquiet : ∀ op ∈ ops, op.peer ≠ some p) :
    (run (step codec) m ops).session p = m.session p := by
  refine invariant_run (I := fun m' : AdmissionManager Peer ↦ m'.session p = m.session p)
    (P := fun _ op ↦ op.peer ≠ some p) ?_ rfl ops ?_
  · exact fun m' op hm hop ↦ (session_step_ne hop).trans hm
  · intro x hx
    obtain ⟨before, after, rfl, -⟩ := mem_trace hx
    exact hquiet x.2 (List.mem_append_right _ List.mem_cons_self)

/-- A peer that is answered with a queue update has a named session that is not ready. -/
theorem session_of_queueUpdate {m' : AdmissionManager Peer} {msg : HandshakeMessage}
    {reply : List HandshakeMessage} {position length : ℕ} (hid : m.aldivineIdOf p = some id)
    (h : Move codec m p call msg m' reply) (hqueued : .queueUpdate position length ∈ reply) :
    ∃ s, m'.session p = some s ∧ s.aldivineId = some id ∧ s.state ≠ .ready ∧
      isBlank id = false := by
  cases h with
  | @enqueue s id' hs hid' hr hb hadm hp hw hjoin =>
    have hsame : id' = id := by simpa [aldivineIdOf, hs, hid'] using hid
    subst hsame
    let m₁ := withQueue m { m.queue with
      waitlist := m.queue.waitlist ++ [⟨id', false, call.nowMs⟩] }
    exact ⟨_, session_updateSession_eq (m := m₁) _ hs, hid', hr, hb⟩
  | turnAway hs hid' hr hadm reason => cases reason <;> simp [joinRefusal] at hqueued
  | _ => simp [onHello] at hqueued

theorem admits_of_serverReady {m' : AdmissionManager Peer} {reply : List HandshakeMessage}
    (hs : m.session p = some s) (hid : s.aldivineId = some id) (hr : s.state ≠ .ready)
    (h : Move codec m p call .clientReady m' reply) (hreply : .serverReady true ∈ reply) :
    m.queue.Admits ⟨id, false⟩ := by
  cases h with
  | rejoin ht hready =>
    obtain rfl := Option.some.inj (hs.symm.trans ht)
    exact absurd hready hr
  | join ht hid' hr' hadm =>
    obtain rfl := Option.some.inj (hs.symm.trans ht)
    obtain rfl := Option.some.inj (hid.symm.trans hid')
    exact hadm
  | turnAway ht hid' hr' hadm reason => cases reason <;> simp [joinRefusal] at hreply
  | _ => simp at hreply

theorem joinsWorld_iff (hs : m.session p = some s) (hid : s.aldivineId = some id)
    (hr : s.state ≠ .ready) (hb : isBlank id = false) :
    JoinsWorld codec m p call ↔ id ∉ m.queue.playingIds ∧ id ∉ m.queue.waitlistIds ∧
      m.queue.slotFreeFor false = true := by
  constructor
  · intro h
    exact (admits_of_serverReady hs hid hr (handle_move codec call .clientReady) h.1).2
  · intro h
    have hadm : m.queue.Admits ⟨id, false⟩ := ⟨hb, h⟩
    have he : step codec m (.ready p call) = _ := onReady_of_admits hs hid hr hadm
    let m₁ := withQueue m (m.queue.join ⟨id, false⟩ call.nowMs).1
    rw [JoinsWorld, he]
    refine ⟨by simp, ?_⟩
    rw [stateOf, session_setState_eq (m := m₁) .ready hs, Option.map_some]

theorem keepsPlace_iff (hs : m.session p = some s) (hid : s.aldivineId = some id)
    (hr : s.state ≠ .ready) (hb : isBlank id = false) (hwait : id ∈ m.queue.waitlistIds) :
    KeepsPlace codec m p id call ↔ m.stateOf p = some .rejected := by
  have he : step codec m (.ready p call) = _ := onReady_of_present hs hid hr hb (.inr hwait)
  rw [KeepsPlace, he, setState_queue, session_setState_eq .rejected hs, hs, stateOf, hs]
  simp only [and_true, Option.map_some, Option.some.injEq]
  constructor
  · exact fun h ↦ (congrArg AdmissionSession.state h).symm
  · intro h
    rw [← h]

/-- A waitlisted peer that reports ready again is brought into the world exactly when its id has no
place any more and a slot is free, and stays queued exactly when it was rejected before. -/
theorem queued_ready_iff (codec : UlidCodec) (serverName : String) (maxPlayers : UInt32)
    (req : IdentityRequirements) (before after : List (Op Peer)) (p : Peer) (id : String)
    (call call' : Call) (m₁ m₂ m₃ : AdmissionManager Peer)
    (h₁ : m₁ = run (step codec) (.new serverName maxPlayers req) before)
    (h₂ : m₂ = (step codec m₁ (.ready p call)).1) (h₃ : m₃ = run (step codec) m₂ after)
    (hid : m₁.aldivineIdOf p = some id)
    (hqueued : ∃ position length, .queueUpdate position length ∈ (step codec m₁ (.ready p call)).2)
    (hquiet : ∀ op ∈ after, op.peer ≠ some p) :
    (Promoted codec m₂ after id → (JoinsWorld codec m₃ p call' ↔
      id ∉ m₃.queue.playingIds ∧ id ∉ m₃.queue.waitlistIds ∧
        m₃.queue.slotFreeFor false = true)) ∧
    (id ∈ m₃.queue.waitlistIds →
      (KeepsPlace codec m₃ p id call' ↔ m₃.stateOf p = some .rejected)) := by
  subst h₁ h₂ h₃
  obtain ⟨position, length, hqueued⟩ := hqueued
  obtain ⟨s, hs, hsid, hr, hb⟩ :=
    session_of_queueUpdate hid (handle_move codec call .clientReady) hqueued
  have hs' := (session_run_quiet codec after hquiet).trans hs
  exact ⟨fun _ ↦ joinsWorld_iff hs' hsid hr hb, fun hwait ↦ keepsPlace_iff hs' hsid hr hb hwait⟩

/-- Ann takes the only slot; Bob gets as far as reporting ready. -/
def crowdedRun : List (Op String) :=
  [.hello "a" (.atTime 0), .auth "a" "ann" "n-1-a" (.atTime 1),
    .identity "a" "ann" none (.atTime 2), .ready "a" (.atTime 3),
    .hello "b" (.atTime 4), .auth "b" "bob" "n-2-b" (.atTime 5),
    .identity "b" "bob" none (.atTime 6)]

def crowded : AdmissionManager String :=
  (step .zero (run (step .zero) (.new "srv" 1 .lenient) crowdedRun) (.ready "b" (.atTime 7))).1

/-- Bob is on another peer too; Ann leaves, and then that other peer. -/
def handoverRun : List (Op String) :=
  [.hello "c" (.atTime 8), .auth "c" "bob" "n-3-c" (.atTime 9), .remove "a", .remove "c"]

theorem handoverRun_joins :
    Promoted .zero crowded handoverRun "bob" ∧
      JoinsWorld .zero (run (step .zero) crowded handoverRun) "b" (.atTime 10) := by
  have hp : Promoted .zero crowded handoverRun "bob" := by decide
  have hiff := (queued_ready_iff .zero "srv" 1 .lenient crowdedRun handoverRun "b" "bob" (.atTime 7)
    (.atTime 10) _ crowded _ rfl rfl rfl (by decide) ⟨1, 1, by decide⟩ (by decide)).1 hp
  exact ⟨hp, hiff.mpr (by decide)⟩

/-- Bob is promoted when Ann leaves, and loses his session when he reports ready. -/
theorem promoted_turned_away :
    .queueUpdate 1 1 ∈ (step .zero (run (step .zero) (.new "srv" 1 .lenient) crowdedRun)
      (.ready "b" (.atTime 7))).2 ∧
    Promoted .zero crowded [.remove "a"] "bob" ∧
    ¬JoinsWorld .zero (run (step .zero) crowded [.remove "a"]) "b" (.atTime 8) ∧
    "bob" ∈ crowded.queue.waitlistIds ∧ ¬KeepsPlace .zero crowded "b" "bob" (.atTime 8) := by
  simp only [JoinsWorld, KeepsPlace]
  decide

end Aldivine.Admission.Promotion
