import Aldivine.Admission.Walk
import Aldivine.Joining.Driver

namespace Aldivine.Joining.Agreement

open Foundation.Text Foundation.Execution Core.PlayerId Identity.Policy AdmissionQueue.Model
open Admission.Handshake Admission.Manager Admission.Manager.AdmissionManager Admission.Moves
open Admission.Walk Driver

variable {Peer : Type} [DecidableEq Peer]

/-- The messages of a conforming peer in their order: hello, auth, identity, entitlement, and then
`ClientReady` as often as it takes. -/
def InTurn (k : ℕ) : HandshakeMessage → Prop
  | .clientHello .. => k = 0
  | .clientAuth .. => k = 1
  | .identityResponse .. => k = 2
  | .entitlementRequest => k = 3
  | .clientReady => 4 ≤ k
  | _ => False

def sent (p : Peer) (ops : List (Op Peer)) : ℕ := ops.countP (fun op ↦ decide (op.peer = some p))

/-- The call is not `p`'s, or it is the message that comes next after `k` others. -/
def Conforms (p : Peer) (k : ℕ) : Op Peer → Prop
  | .handle q msg _ => q = p → InTurn k msg
  | .remove q => q ≠ p
  | .setManifest _ => True

/-- Among the calls of all peers, those of `p` are the ones of a conforming peer that has sent `k`
messages. -/
def ConformingFrom (p : Peer) : ℕ → List (Op Peer) → Prop
  | _, [] => True
  | k, op :: ops =>
    Conforms p k op ∧ ConformingFrom p (if op.peer = some p then k + 1 else k) ops

def Conforming (p : Peer) (ops : List (Op Peer)) : Prop := ConformingFrom p 0 ops

def eventOf : HandshakeMessage → Option ServerEvent
  | .deferralUpdate message => some (.deferralUpdate message)
  | .deferralDone => some .deferralDone
  | .queueUpdate position _ => some (.queuePosition position)
  | .queueAdmitted => some .queueAdmitted
  | .manifestOffer resources => some (.manifest (resources.foldl (fun n r ↦ n + r.size) 0))
  | .reject _ reason => some (.rejected reason)
  | _ => none

def events (tick : UInt64) (reply : List HandshakeMessage) : List (ServerEvent × UInt64) :=
  (reply.filterMap eventOf).map (fun event ↦ (event, tick))

/-- The events that a call gives the driver of `p`, at the tick of the call. -/
def eventsOf (tick : Op Peer → UInt64) (p : Peer) (x : Op Peer × List HandshakeMessage) :
    List (ServerEvent × UInt64) :=
  if x.1.peer = some p then events (tick x.1) x.2 else []

def fed (tick : Op Peer → UInt64) (p : Peer) (history : List (Op Peer × List HandshakeMessage)) :
    List (ServerEvent × UInt64) := history.flatMap (eventsOf tick p)

def ServerReadySent (p : Peer) (history : List (Op Peer × List HandshakeMessage)) : Prop :=
  ∃ x ∈ history, x.1.peer = some p ∧ .serverReady true ∈ x.2

/-- The driver has taken every reply in order, and after `ServerReady` it downloads. -/
structure Agreed (d : JoinDriver) (tick : Op Peer → UInt64) (p : Peer)
    (history : List (Op Peer × List HandshakeMessage)) : Prop where
  orderly : Orderly d (fed tick p history)
  downloading : ServerReadySent p history →
    ∃ received total, (run JoinDriver.apply d (fed tick p history)).phase =
      .downloading received total

/-- The queue does not let `p` in: it turns the `ClientReady` away, or puts a peer on the waitlist
that was rejected before. -/
def KeptOut (p : Peer) (m : AdmissionManager Peer) : Op Peer → Prop
  | .handle q .clientReady call => q = p → ∀ s id, m.session p = some s →
      s.aldivineId = some id → s.state ≠ .ready →
        ¬m.queue.Admits ⟨id, false⟩ ∧
          ((∃ reason, (m.queue.join ⟨id, false⟩ call.nowMs).2 = .rejected reason) ∨
            s.state = .rejected)
  | _ => True

/-- How far the session of a conforming peer and its driver have come, as long as the peer has been
kept out. -/
inductive Place : Option AdmissionSession → ℕ → JoinPhase → Prop
  | start : Place none 0 .handshake
  | greeted {s} (hstate : s.state = .waitingAuth) (hid : s.aldivineId = none) :
      Place (some s) 1 .handshake
  | known {s id} (hstate : s.state = .waitingIdentity) (hid : s.aldivineId = some id)
      (hblank : isBlank id = false) : Place (some s) 2 .handshake
  | identified {s id k message} (hstate : s.state = .waitingQueue) (hid : s.aldivineId = some id)
      (hblank : isBlank id = false) (hk : 3 ≤ k) : Place (some s) k (.deferrals message)
  | failed {session k reason} (hk : 1 ≤ k) (hhello : k = 1 → session = none)
      (hauth : k = 2 → ∀ s, session = some s → s.aldivineId = none)
      (hrest : ∀ s, session = some s →
        s.state ≠ .ready ∧ (s.aldivineId = none ∨ s.state = .rejected)) :
      Place session k (.failed reason)

structure Aligned (d : JoinDriver) (tick : Op Peer → UInt64) (p : Peer) (m : AdmissionManager Peer)
    (history : List (Op Peer × List HandshakeMessage)) : Prop where
  orderly : Orderly d (fed tick p history)
  unready : ¬ServerReadySent p history
  place : Place (m.session p) (sent p (history.map (·.1)))
    (run JoinDriver.apply d (fed tick p history)).phase

variable {d : JoinDriver} {tick : Op Peer → UInt64} {p : Peer} {m m' : AdmissionManager Peer}
  {history : List (Op Peer × List HandshakeMessage)} {op : Op Peer}
  {reply : List HandshakeMessage}

section History

theorem ConformingFrom.conforms {k : ℕ} {ops : List (Op Peer)} (h : ConformingFrom p k ops)
    {before : List (Op Peer)} (hpre : before ++ [op] <+: ops) :
    Conforms p (k + sent p before) op := by
  induction before generalizing k ops with
  | nil =>
    obtain ⟨rest, rfl⟩ := hpre
    exact h.1
  | cons first before ih =>
    obtain ⟨rest, rfl⟩ := hpre
    have hrest := ih h.2 ⟨rest, rfl⟩
    have hcount : (if first.peer = some p then k + 1 else k) + sent p before =
        k + sent p (first :: before) := by
      simp only [sent, List.countP_cons, decide_eq_true_eq]
      split <;> omega
    rw [← hcount]
    exact hrest

theorem sent_concat (x : Op Peer × List HandshakeMessage) :
    sent p ((history ++ [x]).map (·.1)) =
      sent p (history.map (·.1)) + if x.1.peer = some p then 1 else 0 := by
  simp [sent, List.countP_append, List.countP_singleton]

theorem fed_concat (x : Op Peer × List HandshakeMessage) :
    fed tick p (history ++ [x]) = fed tick p history ++ eventsOf tick p x := by
  simp [fed]

omit [DecidableEq Peer] in
theorem serverReadySent_concat (x : Op Peer × List HandshakeMessage) :
    ServerReadySent p (history ++ [x]) ↔
      ServerReadySent p history ∨ (x.1.peer = some p ∧ .serverReady true ∈ x.2) := by
  simp [ServerReadySent, or_and_right, exists_or]

theorem eventsOf_self (hop : op.peer = some p) :
    eventsOf tick p (op, reply) = events (tick op) reply :=
  if_pos hop

theorem agreed_of_aligned (h : Aligned d tick p m history) : Agreed d tick p history :=
  ⟨h.orderly, fun hsent ↦ absurd hsent h.unready⟩

theorem aligned_other (hop : op.peer ≠ some p) (hsession : m'.session p = m.session p)
    (h : Aligned d tick p m history) : Aligned d tick p m' (history ++ [(op, reply)]) := by
  have hnone : eventsOf tick p (op, reply) = [] := if_neg hop
  refine ⟨?_, ?_, ?_⟩
  · rw [fed_concat, hnone, List.append_nil]
    exact h.orderly
  · rw [serverReadySent_concat]
    rintro (hsent | ⟨hself, -⟩)
    · exact h.unready hsent
    · exact hop hself
  · rw [fed_concat, hnone, List.append_nil, sent_concat, if_neg hop, Nat.add_zero, hsession]
    exact h.place

/-- What one more call of `p` has to show, with the driver as it is before it. -/
structure Advances (d : JoinDriver) (tick : UInt64) (p : Peer) (k : ℕ)
    (r : AdmissionManager Peer × List HandshakeMessage) : Prop where
  unready : .serverReady true ∉ r.2
  orderly : Orderly d (events tick r.2)
  place : Place (r.1.session p) (k + 1) (run JoinDriver.apply d (events tick r.2)).phase

theorem aligned_next {r : AdmissionManager Peer × List HandshakeMessage} (hop : op.peer = some p)
    (h : Aligned d tick p m history)
    (hnext : Advances (run JoinDriver.apply d (fed tick p history)) (tick op) p
      (sent p (history.map (·.1))) r) :
    Aligned d tick p r.1 (history ++ [(op, r.2)]) := by
  have hevents : eventsOf tick p (op, r.2) = events (tick op) r.2 := eventsOf_self hop
  refine ⟨?_, ?_, ?_⟩
  · rw [fed_concat, hevents, orderly_append]
    exact ⟨h.orderly, hnext.orderly⟩
  · rw [serverReadySent_concat]
    rintro (hsent | ⟨-, hmem⟩)
    · exact h.unready hsent
    · exact hnext.unready hmem
  · rw [fed_concat, hevents, run_append, sent_concat, if_pos hop]
    exact hnext.place

end History

theorem keptOut_of_not_ready (hop : op.readyPeer ≠ some p) : KeptOut p m op := by
  cases op with
  | handle q msg call =>
    cases msg with
    | clientReady =>
      intro hq
      exact absurd (congrArg some hq) hop
    | _ => exact trivial
  | remove q => exact trivial
  | setManifest entries => exact trivial

omit [DecidableEq Peer] in
theorem readyPeer_eq (hop : op.readyPeer = some p) : ∃ call, op = .handle p .clientReady call := by
  unfold Op.readyPeer at hop
  split at hop
  · exact ⟨_, by rw [Option.some.inj hop]⟩
  · cases hop

section Places

variable {d : JoinDriver} {tick : UInt64} {k : ℕ} {code reason text : String}
  {r : AdmissionManager Peer × List HandshakeMessage}

theorem advances_reject (hopen : d.phase.terminal = false) (hreply : r.2 = [.reject code reason])
    (hplace : ∀ text, Place (r.1.session p) (k + 1) (.failed text)) : Advances d tick p k r := by
  have hevents : events tick r.2 = [(.rejected reason, tick)] := by
    rw [hreply]
    rfl
  refine ⟨?_, ?_, ?_⟩
  · rw [hreply]
    simp
  · rw [hevents, orderly_cons, apply_rejected hopen]
    refine ⟨?_, orderly_nil⟩
    rintro ⟨event, phase, heq⟩
    cases heq
  · rw [hevents, run_cons, apply_rejected hopen]
    exact hplace _

theorem advances_skip (hskip : events tick r.2 = []) (hready : .serverReady true ∉ r.2)
    (hplace : Place (r.1.session p) (k + 1) d.phase) : Advances d tick p k r := by
  refine ⟨hready, ?_, ?_⟩
  · rw [hskip]
    exact orderly_nil
  · rw [hskip]
    exact hplace

/-- A driver that has failed skips everything. -/
theorem advances_late (hphase : d.phase = .failed text) (hready : .serverReady true ∉ r.2)
    (hplace : Place (r.1.session p) (k + 1) (.failed text)) : Advances d tick p k r := by
  have hterminal : d.phase.terminal = true := by
    rw [hphase]
    rfl
  obtain ⟨hrun, horderly⟩ := terminal_run hterminal (events tick r.2)
  refine ⟨hready, horderly, ?_⟩
  rw [hrun, hphase]
  exact hplace

variable [ToString Peer] {codec : UlidCodec} {msg : HandshakeMessage} {call : Call}

theorem Place.of_failed {session : Option AdmissionSession} (h : Place session k (.failed text)) :
    1 ≤ k ∧ (k = 1 → session = none) ∧
      (k = 2 → ∀ s, session = some s → s.aldivineId = none) ∧
      ∀ s, session = some s → s.state ≠ .ready ∧ (s.aldivineId = none ∨ s.state = .rejected) := by
  cases h with
  | failed hk hhello hauth hrest => exact ⟨hk, hhello, hauth, hrest⟩

omit [ToString Peer] in
theorem place_rejected {s : AdmissionSession} (hk : 3 ≤ k) (hsession : m.session p = some s) (text : String) :
    Place ((m.setState p .rejected).session p) k (.failed text) := by
  rw [session_setState_eq .rejected hsession]
  refine .failed (by omega) (by omega) (by omega) ?_
  intro s' hs'
  obtain rfl := Option.some.inj hs'
  exact ⟨by simp, .inr rfl⟩

theorem advances_failed (hphase : d.phase = .failed text)
    (hplace : Place (m.session p) k (.failed text)) (hturn : InTurn k msg)
    (hkept : KeptOut p m (.handle p msg call)) :
    Advances d tick p k (m.handle codec p msg call) := by
  obtain ⟨m', reply, he, hmove⟩ := exists_move codec call m p msg
  rw [he]
  obtain ⟨hk, hhello, hauth, hrest⟩ := hplace.of_failed
  -- a session that is as it was stands as it stood
  have hsame (hready : HandshakeMessage.serverReady true ∉ reply)
      (hsession : m'.session p = m.session p) : Advances d tick p k (m', reply) := by
    refine advances_late hphase hready (.failed (by omega) (by omega) ?_ ?_)
    · intro hk2 s hs
      rw [hsession, hhello (by omega)] at hs
      cases hs
    · intro s hs
      exact hrest s (hsession.symm.trans hs)
  -- from the identity step on, a session needs no id or the mark of its rejection
  have hnew {s : AdmissionSession} (hready : HandshakeMessage.serverReady true ∉ reply)
      (hk2 : 2 ≤ k) (hsession : m'.session p = some s) (hstate : s.state ≠ .ready)
      (hid : s.aldivineId = none ∨ s.state = .rejected) : Advances d tick p k (m', reply) := by
    refine advances_late hphase hready (.failed (by omega) (by omega) (by omega) ?_)
    intro s' hs'
    obtain rfl := Option.some.inj (hsession.symm.trans hs')
    exact ⟨hstate, hid⟩
  cases hmove with
  | refuse code reason hhello hid => exact hsame (by simp) rfl
  | greet build edition clientVersion =>
    have hzero : k = 0 := hturn
    omega
  | @authFail s id token platform response hs hw code reason =>
    cases (hhello hturn).symm.trans hs
  | @authenticate s id token platform hs hw hid =>
    cases (hhello hturn).symm.trans hs
  | @identityFail s id entitlement platformId deviceId hs hid code reason =>
    have htwo : k = 2 := hturn
    exact hnew (by simp) (by omega) (session_setState_eq .rejected hs) (by simp) (.inr rfl)
  | @identify s id entitlement platformId deviceId hs hid =>
    have htwo : k = 2 := hturn
    exact hnew (by simp) (by omega) (session_setState_eq .waitingQueue hs) (by simp)
      (.inl (hauth htwo s hs))
  | entitle hs hr => exact hsame (by simp) rfl
  | rejoin hs hr => exact absurd hr (hrest _ hs).1
  | @join s id hs hid hr hadm => exact absurd hadm (hkept rfl s id hs hid hr).1
  | @enqueue s id hs hid hr hb hadm hp hw hjoin =>
    have hfour : 4 ≤ k := hturn
    have hstate := (hrest s hs).2.resolve_left (by rw [hid]; exact Option.some_ne_none _)
    exact hnew (by simp) (by omega) (session_updateSession_eq _ (by exact hs)) (by simp [hstate])
      (.inr hstate)
  | @turnAway s id hs hid hr hadm reason =>
    have hfour : 4 ≤ k := hturn
    refine hnew ?_ (by omega) (session_setState_eq .rejected hs) (by simp) (.inr rfl)
    cases reason <;> simp [joinRefusal]

theorem advances_start (hphase : d.phase = .handshake) (hsession : m.session p = none) :
    Advances d tick p 0 (m.handle codec p msg call) := by
  obtain ⟨m', reply, he, hmove⟩ := exists_move codec call m p msg
  rw [he]
  cases hmove with
  | refuse code reason =>
    have hopen : d.phase.terminal = false := by
      rw [hphase]
      rfl
    refine advances_reject hopen rfl (fun text ↦ .failed (by omega) (fun _ ↦ hsession) ?_ ?_)
    · intro h
      omega
    · intro s hs
      cases hsession.symm.trans hs
  | greet build edition clientVersion =>
    refine advances_skip rfl (by simp [onHello]) ?_
    rw [hphase, session_onHello_self]
    exact .greeted rfl rfl
  | authFail hs | authenticate hs | identityFail hs | identify hs | entitle hs | rejoin hs
  | join hs | enqueue hs | turnAway hs => cases hsession.symm.trans hs

theorem advances_greeted {s : AdmissionSession} (hphase : d.phase = .handshake)
    (hsession : m.session p = some s) (hid : s.aldivineId = none) (hstate : s.state ≠ .ready)
    (hturn : InTurn 1 msg) : Advances d tick p 1 (m.handle codec p msg call) := by
  have hopen : d.phase.terminal = false := by
    rw [hphase]
    rfl
  obtain ⟨m', reply, he, hmove⟩ := exists_move codec call m p msg
  rw [he]
  have hfailed {s' : AdmissionSession} (hs' : m'.session p = some s') (hid' : s'.aldivineId = none)
      (hstate' : s'.state ≠ .ready) (text : String) :
      Place (m'.session p) (1 + 1) (.failed text) := by
    rw [hs']
    refine .failed (by omega) (by omega) ?_ ?_
    · intro _ s hs
      obtain rfl := Option.some.inj hs
      exact hid'
    · intro s hs
      obtain rfl := Option.some.inj hs
      exact ⟨hstate', .inl hid'⟩
  cases hmove with
  | refuse code reason => exact advances_reject hopen rfl (hfailed hsession hid hstate)
  | authFail hs hw code reason =>
    obtain rfl := Option.some.inj (hsession.symm.trans hs)
    exact advances_reject hopen rfl
      (hfailed (session_setState_eq .rejected hs) hid (by simp))
  | @authenticate s' id token platform hs hw hblank =>
    refine advances_skip rfl (by simp) ?_
    rw [hphase, session_updateSession_eq _ hs]
    exact .known rfl rfl hblank
  | greet | identityFail | identify | entitle | rejoin | join | enqueue | turnAway =>
    simp only [InTurn] at hturn
    omega

theorem advances_known {s : AdmissionSession} {id : String} (hphase : d.phase = .handshake)
    (hsession : m.session p = some s) (hid : s.aldivineId = some id) (hblank : isBlank id = false)
    (hturn : InTurn 2 msg) : Advances d tick p 2 (m.handle codec p msg call) := by
  have hopen : d.phase.terminal = false := by
    rw [hphase]
    rfl
  obtain ⟨m', reply, he, hmove⟩ := exists_move codec call m p msg
  rw [he]
  cases hmove with
  | refuse code reason hhello hidentity =>
    cases msg with
    | identityResponse id platformId entitlement deviceId =>
      rcases hidentity with hnone | hnone
      · cases hnone
      · cases hsession.symm.trans hnone
    | _ => simp [InTurn] at hturn
  | identityFail hs hpolicy code reason =>
    exact advances_reject hopen rfl (place_rejected (Nat.le_refl 3) hs)
  | identify hs hpolicy =>
    obtain rfl := Option.some.inj (hsession.symm.trans hs)
    have hnext : JoinDriver.next d.phase .deferralDone = some (some (.deferrals "")) := by
      rw [hphase]
      rfl
    have hevents : events tick [.deferralDone, .entitlementRequest] =
        [(.deferralDone, tick)] := rfl
    refine ⟨by simp, ?_, ?_⟩
    · rw [hevents, orderly_cons, apply_next tick hopen hnext]
      refine ⟨?_, orderly_nil⟩
      rintro ⟨event, phase, heq⟩
      cases heq
    · rw [hevents, run_cons, apply_next tick hopen hnext, session_setState_eq .waitingQueue hs]
      exact .identified rfl hid hblank (Nat.le_refl 3)
  | greet | authFail | authenticate | entitle | rejoin | join | enqueue | turnAway =>
    simp [InTurn] at hturn

omit [ToString Peer] in
/-- Every way the queue can answer a `ClientReady` of an authenticated session. -/
theorem ready_cases {s : AdmissionSession} {id : String} (nowMs : UInt64)
    (hsession : m.session p = some s) (hid : s.aldivineId = some id) (hblank : isBlank id = false)
    (hstate : s.state ≠ .ready) :
    (m.queue.Admits ⟨id, false⟩ ∧
        (m.onReady p nowMs).2 = [.queueAdmitted, .manifestOffer m.manifest, .serverReady true]) ∨
      (¬m.queue.Admits ⟨id, false⟩ ∧ (∃ n, (m.queue.join ⟨id, false⟩ nowMs).2 = .queued n) ∧
        ∃ position total,
          (m.onReady p nowMs).2 = [.queueUpdate position total, .manifestOffer m.manifest]) ∨
      (¬m.queue.Admits ⟨id, false⟩ ∧
        ∃ reason, (m.queue.join ⟨id, false⟩ nowMs).2 = .rejected reason ∧
          m.onReady p nowMs = (m.setState p .rejected, [joinRefusal reason])) := by
  have hne : id.isEmpty = false := by simpa using ne_empty_of_not_blank hblank
  rcases Queue.join_cases m.queue ⟨id, false⟩ nowMs with
    ⟨hadm, -⟩ | ⟨hadm, -, -, -, -, hjoin⟩ | ⟨hadm, reason, hjoin⟩
  · exact .inl ⟨hadm, by rw [onReady_of_admits hsession hid hstate hadm]⟩
  · refine .inr (.inl ⟨hadm, ⟨_, by rw [hjoin]⟩, ?_⟩)
    simp only [onReady, hsession, hid, Option.getD_some, hne, Bool.false_eq_true, if_false, hstate,
      hjoin, updateSession_manifest]
    exact ⟨_, _, rfl⟩
  · refine .inr (.inr ⟨hadm, reason, by rw [hjoin], ?_⟩)
    simp only [onReady, hsession, hid, Option.getD_some, hne, Bool.false_eq_true, if_false, hstate,
      hjoin]

theorem advances_identified {s : AdmissionSession} {id message : String}
    (hphase : d.phase = .deferrals message) (hsession : m.session p = some s)
    (hstate : s.state = .waitingQueue) (hid : s.aldivineId = some id) (hblank : isBlank id = false)
    (hk : 3 ≤ k) (hturn : InTurn k msg) (hkept : KeptOut p m (.handle p msg call)) :
    Advances d tick p k (m.handle codec p msg call) := by
  have hopen : d.phase.terminal = false := by
    rw [hphase]
    rfl
  cases msg with
  | entitlementRequest =>
    have he : m.onEntitlement p = (m, [.entitlementResult "FREE" "ok"]) := by
      simp [onEntitlement, hsession, hstate]
    rw [handle, he]
    refine advances_skip rfl (by simp) ?_
    rw [hphase, hsession]
    exact .identified hstate hid hblank (by omega)
  | clientReady =>
    have hready : s.state ≠ .ready := by simp [hstate]
    obtain ⟨hout, hwhy⟩ := hkept rfl s id hsession hid hready
    rcases ready_cases call.nowMs hsession hid hblank hready with
      ⟨hadm, -⟩ | ⟨-, ⟨n, hqueued⟩, -⟩ | ⟨-, reason, -, he⟩
    · exact absurd hadm hout
    · rcases hwhy with ⟨reason, hrejected⟩ | hrejected
      · cases hqueued.symm.trans hrejected
      · cases hstate.symm.trans hrejected
    · rw [handle, he]
      obtain ⟨code, text, hrefusal⟩ : ∃ code text, joinRefusal reason = .reject code text := by
        cases reason <;> exact ⟨_, _, rfl⟩
      exact advances_reject hopen (by rw [hrefusal]) (place_rejected (by omega) hsession)
  | clientHello | clientAuth | identityResponse =>
    simp only [InTurn] at hturn
    omega
  | _ => exact False.elim hturn

theorem handle_advances (hplace : Place (m.session p) k d.phase) (hturn : InTurn k msg)
    (hkept : KeptOut p m (.handle p msg call)) :
    Advances d tick p k (m.handle codec p msg call) := by
  generalize hsession : m.session p = session at hplace
  generalize hphase : d.phase = phase at hplace
  cases hplace with
  | start => exact advances_start hphase hsession
  | greeted hstate hid => exact advances_greeted hphase hsession hid (by simp [hstate]) hturn
  | known hstate hid hblank => exact advances_known hphase hsession hid hblank hturn
  | identified hstate hid hblank hk =>
    exact advances_identified hphase hsession hstate hid hblank hk hturn hkept
  | failed hk hhello hauth hrest =>
    refine advances_failed hphase ?_ hturn hkept
    rw [hsession]
    exact .failed hk hhello hauth hrest

omit [ToString Peer] in
/-- A peer that is let in is told so in an order that its driver does not take. -/
theorem ready_disagrees (hplace : Place (m.session p) k d.phase) (hk : 4 ≤ k)
    (hlet : ¬KeptOut p m (.handle p .clientReady call)) :
    ¬Orderly d (events tick (m.onReady p call.nowMs).2) ∨
      (.serverReady true ∈ (m.onReady p call.nowMs).2 ∧ d.phase.terminal = true) := by
  obtain ⟨s, id, hsession, hid, hready, hlet⟩ : ∃ s id, m.session p = some s ∧
      s.aldivineId = some id ∧ s.state ≠ .ready ∧ ¬(¬m.queue.Admits ⟨id, false⟩ ∧
        ((∃ reason, (m.queue.join ⟨id, false⟩ call.nowMs).2 = .rejected reason) ∨
          s.state = .rejected)) := by
    simpa [KeptOut] using hlet
  generalize hphase : d.phase = phase at hplace
  rw [hsession] at hplace
  cases hplace with
  | greeted hstate hnone => omega
  | known hstate hid' hblank => omega
  | @identified _ id' _ message hstate hid' hblank hk3 =>
    obtain rfl := Option.some.inj (hid'.symm.trans hid)
    have hopen : d.phase.terminal = false := by
      rw [hphase]
      rfl
    refine .inl ?_
    rcases ready_cases call.nowMs hsession hid hblank hready with
      ⟨-, he⟩ | ⟨-, -, position, total, he⟩ | ⟨hadm, reason, hrejected, -⟩
    · rw [he]
      intro horderly
      have hfirst := (orderly_cons.mp horderly).1
      rw [apply_unfit tick hopen (by rw [hphase]; rfl)] at hfirst
      exact hfirst ⟨_, _, rfl⟩
    · rw [he]
      intro horderly
      have hsecond : ¬OutOfOrder ((d.apply (.queuePosition position, tick)).1.apply
          (.manifest (m.manifest.foldl (fun n r ↦ n + r.size) 0), tick)).2 :=
        (orderly_cons.mp (orderly_cons.mp horderly).2).1
      have hqueued : (d.apply (.queuePosition position, tick)).1 =
          { d with phase := .queued position, lastEventTick := tick } := by
        rw [apply_next tick hopen (by rw [hphase]; rfl)]
        rfl
      rw [hqueued, apply_unfit tick rfl rfl] at hsecond
      exact hsecond ⟨_, _, rfl⟩
    · exact absurd ⟨hadm, .inl ⟨reason, hrejected⟩⟩ hlet
  | @failed _ _ reason _ hhello hauth hrest =>
    obtain ⟨-, hwhy⟩ := hrest s rfl
    have hrejected := hwhy.resolve_left (by rw [hid]; exact Option.some_ne_none _)
    have hadm : m.queue.Admits ⟨id, false⟩ := by
      by_contra hnot
      exact hlet ⟨hnot, .inr hrejected⟩
    refine .inr ⟨?_, rfl⟩
    rw [onReady_of_admits hsession hid hready hadm]
    simp

end Places

section Runs

variable [ToString Peer] {codec : UlidCodec}

/-- One call, by any peer, keeps the driver in step with the server as long as `p` is kept out. -/
theorem step_aligned (hconforms : Conforms p (sent p (history.map (·.1))) op)
    (h : Aligned d tick p m history) (hkept : KeptOut p m op) :
    Aligned d tick p (step codec m op).1 (history ++ [(op, (step codec m op).2)]) := by
  by_cases hop : op.peer = some p
  · cases op with
    | handle q msg call =>
      obtain rfl : q = p := Option.some.inj hop
      exact aligned_next rfl h (handle_advances h.place (hconforms rfl) hkept)
    | remove q => exact absurd (Option.some.inj hop) hconforms
    | setManifest entries => cases hop
  · exact aligned_other hop (session_step_ne hop) h

theorem step_disagrees (hconforms : Conforms p (sent p (history.map (·.1))) op)
    (h : Aligned d tick p m history) (hlet : ¬KeptOut p m op) :
    ¬Agreed d tick p (history ++ [(op, (step codec m op).2)]) := by
  have hself : op.readyPeer = some p := by
    by_contra hop
    exact hlet (keptOut_of_not_ready hop)
  obtain ⟨call, rfl⟩ := readyPeer_eq hself
  intro hagreed
  have hevents : fed tick p (history ++ [(.handle p .clientReady call,
      (step codec m (.handle p .clientReady call)).2)]) = fed tick p history ++
        events (tick (.handle p .clientReady call)) (m.onReady p call.nowMs).2 := by
    rw [fed_concat, eventsOf_self rfl]
    rfl
  rcases ready_disagrees h.place (hconforms rfl) hlet with hdisorder | ⟨hready, hterminal⟩
  · have horderly := hagreed.orderly
    rw [hevents, orderly_append] at horderly
    exact hdisorder horderly.2
  · obtain ⟨received, total, hphase⟩ := hagreed.downloading
      ((serverReadySent_concat _).mpr (.inr ⟨rfl, hready⟩))
    rw [hevents, run_append, (terminal_run hterminal _).1] at hphase
    rw [hphase] at hterminal
    cases hterminal

/-- The driver of a conforming peer takes all replies in order exactly as long as the queue never
lets the peer in. -/
theorem agreed_iff_kept_out (codec : UlidCodec) (name : String) (maxPlayers : UInt32)
    (req : IdentityRequirements) (p : Peer) (nowTick stallBudget : UInt64)
    (tick : Op Peer → UInt64) (ops : List (Op Peer)) (hconforming : Conforming p ops) :
    (∀ before, before <+: ops → Agreed ⟨.handshake, nowTick, stallBudget⟩ tick p
        (answers (step codec) (.new name maxPlayers req) before)) ↔
      ∀ x ∈ trace (step codec) (.new name maxPlayers req) ops, KeptOut p x.1 x.2 := by
  have hadmissible : Throughout (step codec) (.new name maxPlayers req)
      (fun _ history op ↦ Conforms p (sent p (history.map (·.1))) op) ops := by
    intro before op hpre
    rw [answers_inputs, ← Nat.zero_add (sent p before)]
    exact hconforming.conforms hpre
  have hstart : Aligned ⟨.handshake, nowTick, stallBudget⟩ tick p
      (.new name maxPlayers req) [] := by
    refine ⟨orderly_nil, ?_, .start⟩
    rintro ⟨x, hx, -⟩
    cases hx
  have hrun := throughout_run_iff
    (B := fun m history ↦ Aligned ⟨.handshake, nowTick, stallBudget⟩ tick p m history)
    (I := fun _ history ↦ Agreed ⟨.handshake, nowTick, stallBudget⟩ tick p history)
    (P := fun m _ op ↦ KeptOut p m op) (Q := fun _ _ _ ↦ True)
    (fun m history op hconforms h hkept ↦ step_aligned hconforms h hkept)
    (fun m history op hconforms h _ ↦ ?_) hstart (agreed_of_aligned hstart) ops hadmissible
  · rw [← throughout_trace, ← hrun]
    exact (and_iff_left (fun _ _ _ ↦ trivial)).symm
  · rw [and_iff_left trivial]
    constructor
    · intro hagreed
      by_contra hlet
      exact step_disagrees hconforms h hlet hagreed
    · intro hkept
      exact agreed_of_aligned (step_aligned hconforms h hkept)

end Runs

/-- Two peers with one account: the first one plays, the second one is about to. -/
def crowdRun : List (Op String) :=
  fullRun ++
    [.hello "127.0.0.1:40002" (.atTime 5),
      .auth "127.0.0.1:40002" "alice" "n-2-127.0.0.1:40002" (.atTime 6),
      .identity "127.0.0.1:40002" "alice" none (.atTime 7),
      .entitlement "127.0.0.1:40002" (.atTime 8)]

def latecomerRun : List (Op String) := crowdRun ++ [.ready "127.0.0.1:40002" (.atTime 9)]

theorem latecomer_agreed :
    Agreed ⟨.handshake, 0, 300⟩ (fun _ ↦ 0) "127.0.0.1:40002"
      (answers (step .zero) (.new "test" 64 .lenient) latecomerRun) := by
  refine (agreed_iff_kept_out .zero "test" 64 .lenient "127.0.0.1:40002" 0 300 (fun _ ↦ 0)
    latecomerRun ?_).mpr ?_ latecomerRun List.prefix_rfl
  · simp [Conforming, ConformingFrom, latecomerRun, crowdRun, fullRun, Conforms, InTurn, Op.hello,
      Op.auth, Op.identity, Op.entitlement, Op.ready, Op.peer]
  · rw [latecomerRun, trace_concat, List.forall_mem_append, List.forall_mem_singleton]
    constructor
    · intro x hx
      obtain ⟨before, after, he, -⟩ := mem_trace hx
      have hothers : ∀ op ∈ crowdRun, op.readyPeer ≠ some "127.0.0.1:40002" := by decide
      refine keptOut_of_not_ready (hothers x.2 ?_)
      rw [he]
      exact List.mem_append_right _ List.mem_cons_self
    · intro _ s id hs hid _
      have hknown : (run (step .zero) (.new "test" 64 .lenient) crowdRun).aldivineIdOf
          "127.0.0.1:40002" = some "alice" := by decide
      rw [aldivineIdOf, hs, Option.bind_some, hid] at hknown
      obtain rfl := Option.some.inj hknown
      exact ⟨by decide, .inl ⟨.alreadyPresent, by decide⟩⟩

/-- A peer that is admitted at once: `QueueAdmitted` finds the driver in its deferrals. -/
theorem admitted_out_of_order :
    Conforming "127.0.0.1:40001" fullRun ∧
      ¬Agreed ⟨.handshake, 0, 300⟩ (fun _ ↦ 0) "127.0.0.1:40001"
        (answers (step .zero) (.new "test" 64 .lenient) fullRun) := by
  refine ⟨?_, ?_⟩
  · simp [Conforming, ConformingFrom, fullRun, Conforms, InTurn, Op.hello, Op.auth, Op.identity,
      Op.entitlement, Op.ready, Op.peer]
  · intro hagreed
    have hfed : fed (fun _ ↦ 0) "127.0.0.1:40001"
        (answers (step .zero) (.new "test" 64 .lenient) fullRun) =
          [(.deferralDone, 0), (.queueAdmitted, 0), (.manifest 0, 0)] := by decide
    have horderly := hagreed.orderly
    rw [hfed] at horderly
    exact (orderly_cons.mp (orderly_cons.mp horderly).2).1 ⟨.queueAdmitted, .deferrals "", rfl⟩

end Aldivine.Joining.Agreement
