import Aldivine.Admission.Walk
import Aldivine.Players.Service
import Aldivine.Protocol.Codec
import Aldivine.Transfers.Chunks

namespace Aldivine.Admission.Ingress

open Foundation.Execution Core.Error Core.PlayerId Identity.Policy Files.Directories
open Transfers.Chunks Protocol.Codec Handshake Manager Manager.AdmissionManager Moves Walk
open Players.Service (PlayerService)

/-- The datagrams that the transport reads; a longer one is cut. -/
def mtu : ℕ := 1400

/-- What `serde_json` makes of a handshake message and of the welcome event, and the digest. -/
structure Formats where
  readMessage : List UInt8 → Option HandshakeMessage
  writeMessage : HandshakeMessage → Option (List UInt8)
  welcome : String → UInt32 → Option (List UInt8)
  transfer : TransferJson
  sha256Hex : List UInt8 → String

def channelAllowedClient : Channel → Bool
  | .control | .auth | .eventReliable | .eventUnreliable | .heartbeat | .resourceTransfer => true
  | _ => false

structure ServerState (Peer : Type) where
  name : String
  maxPlayers : UInt32
  directory : String
  admission : AdmissionManager Peer
  frameworkPlayers : PlayerService

/-- A datagram as it is received: whether the sender's token bucket was empty, what the call on the
admission manager is made with, and the files as they are then. -/
structure Arrival (Peer : Type) where
  peer : Peer
  datagram : List UInt8
  limited : Bool
  call : Call
  files : Tree

inductive Input (Peer : Type)
  | datagram (a : Arrival Peer)
  | setManifest (entries : List ResourceEntry)

section Loop

variable {Peer : Type} [DecidableEq Peer]

def sessionIdOf (m : AdmissionManager Peer) (peer : Peer) : UInt64 :=
  ((m.session peer).map (·.sessionId)).getD 0

namespace ServerState

def new (name : String) (maxPlayers : UInt32) (directory : String)
    (identityReq : IdentityRequirements) : ServerState Peer :=
  ⟨name, maxPlayers, directory, .new name maxPlayers identityReq, .new⟩

def admitPacket (s : ServerState Peer) (peer : Peer) (channel : Channel) (limited : Bool) : Bool :=
  if limited then false
  else if !channelAllowedClient channel then false
  else
    match s.admission.stateOf peer with
    | none => channel = .auth
    | some state => !(state.isTerminal && state ≠ .ready)

def send (s : ServerState Peer) (peer : Peer) (channel : Channel) (nowMs : UInt64)
    (payload : List UInt8) : List Packet :=
  let packet : Packet := ⟨⟨1, (sessionIdOf s.admission peer).toBitVec, channel, 0, 0,
    nowMs.toBitVec, 0, BitVec.ofNat 32 payload.length⟩, payload⟩
  match encodePacket packet with
  | .ok _ => [packet]
  | .error _ => []

/-- The account of a peer that was told to enter the world joins the framework's players. -/
def enter (codec : UlidCodec) (s : ServerState Peer) (peer : Peer) : ServerState Peer :=
  match (s.admission.aldivineIdOf peer).bind (AldivinePlayerId.fromString codec) with
  | none => s
  | some id => { s with frameworkPlayers := s.frameworkPlayers.join id }

variable (formats : Formats) (codec : UlidCodec)

def sendWelcome (s : ServerState Peer) (peer : Peer) (nowMs : UInt64) : List Packet :=
  match formats.welcome s.name s.maxPlayers with
  | some payload => s.send peer .eventReliable nowMs payload
  | none => []

def sendReply (s : ServerState Peer) (peer : Peer) (nowMs : UInt64) (reply : HandshakeMessage) :
    List Packet :=
  match formats.writeMessage reply with
  | some payload => s.send peer .auth nowMs payload
  | none => []

def onAuth [ToString Peer] (s : ServerState Peer) (peer : Peer) (msg : HandshakeMessage)
    (call : Call) : ServerState Peer × List Packet :=
  let (admission, responses) := s.admission.handle codec peer msg call
  let s := { s with admission := admission }
  let replies := responses.flatMap (s.sendReply formats peer call.nowMs)
  if .serverReady true ∈ responses then
    (s.enter codec peer, replies ++ s.sendWelcome formats peer call.nowMs)
  else (s, replies)

def onChunk (s : ServerState Peer) (peer : Peer) (body : List UInt8) (nowMs : UInt64)
    (files : Tree) : List Packet :=
  match serveChunk formats.transfer formats.sha256Hex files
      (s.admission.stateOf peer = some .ready) body s.directory with
  | .ok reply => s.send peer .resourceTransfer nowMs reply
  | .error _ => []

def receive [ToString Peer] (s : ServerState Peer) (a : Arrival Peer) :
    ServerState Peer × List Packet :=
  match decodePacket (a.datagram.take mtu) 1 with
  | .error _ => (s, [])
  | .ok packet =>
    if !s.admitPacket a.peer packet.header.channel a.limited then (s, [])
    else
      match packet.header.channel with
      | .auth =>
        match formats.readMessage packet.payload with
        | none => (s, [])
        | some msg => s.onAuth formats codec a.peer msg a.call
      | .resourceTransfer => (s, s.onChunk formats a.peer packet.payload a.call.nowMs a.files)
      | _ => (s, [])

def step [ToString Peer] (s : ServerState Peer) : Input Peer → ServerState Peer × List Packet
  | .datagram a => s.receive formats codec a
  | .setManifest entries => ({ s with admission := s.admission.setManifest entries }, [])

end ServerState

end Loop

variable {Peer : Type} [DecidableEq Peer] (formats : Formats)

def called (s : ServerState Peer) : Input Peer → Option (Op Peer)
  | .datagram a =>
    match decodePacket (a.datagram.take mtu) 1 with
    | .error _ => none
    | .ok packet =>
      if s.admitPacket a.peer packet.header.channel a.limited ∧ packet.header.channel = .auth then
        (formats.readMessage packet.payload).map (fun msg ↦ .handle a.peer msg a.call)
      else none
  | .setManifest entries => some (.setManifest entries)

/-- The calls on the admission manager that a run comes to, each with the manager it met. -/
def calls (tr : List (ServerState Peer × Input Peer)) : List (Event Peer) :=
  tr.filterMap (fun x ↦ (called formats x.1 x.2).map (fun op ↦ (x.1.admission, op)))

theorem calls_concat (tr : List (ServerState Peer × Input Peer)) (s : ServerState Peer)
    (i : Input Peer) :
    calls formats (tr ++ [(s, i)]) =
      calls formats tr ++ ((called formats s i).map (fun op ↦ (s.admission, op))).toList := by
  rw [calls, List.filterMap_append, calls, List.append_cancel_left_eq]
  cases h : called formats s i <;> simp [h]

section Sending

variable {formats} {codec : UlidCodec} {s : ServerState Peer} {a : Arrival Peer} {p : Peer}

theorem called_of_error {e : AldError} (h : decodePacket (a.datagram.take mtu) 1 = .error e) :
    called formats s (.datagram a) = none := by
  simp only [called, h]

variable (formats s) in
theorem called_of_ok {packet : Packet} (h : decodePacket (a.datagram.take mtu) 1 = .ok packet) :
    called formats s (.datagram a) =
      if s.admitPacket a.peer packet.header.channel a.limited ∧ packet.header.channel = .auth then
        (formats.readMessage packet.payload).map (fun msg ↦ .handle a.peer msg a.call)
      else none := by
  simp only [called, h]

theorem admitPacket_rejected {channel : Channel} {limited : Bool}
    (h : s.admission.stateOf p = some .rejected) : s.admitPacket p channel limited = false := by
  unfold ServerState.admitPacket
  split
  · rfl
  · split
    · rfl
    · rw [h]
      rfl

theorem channel_of_send {channel : Channel} {nowMs : UInt64} {payload : List UInt8}
    {packet : Packet} (h : packet ∈ s.send p channel nowMs payload) :
    packet.header.channel = channel := by
  unfold ServerState.send at h
  dsimp only at h
  split at h
  · rw [List.mem_singleton.mp h]
  · cases h

theorem channel_of_sendReply {nowMs : UInt64} {reply : HandshakeMessage} {packet : Packet}
    (h : packet ∈ s.sendReply formats p nowMs reply) : packet.header.channel = .auth := by
  unfold ServerState.sendReply at h
  split at h
  · exact channel_of_send h
  · cases h

theorem channel_of_sendWelcome {nowMs : UInt64} {packet : Packet}
    (h : packet ∈ s.sendWelcome formats p nowMs) : packet.header.channel = .eventReliable := by
  unfold ServerState.sendWelcome at h
  split at h
  · exact channel_of_send h
  · cases h

theorem ready_of_onChunk {body : List UInt8} {nowMs : UInt64} {files : Tree} {packet : Packet}
    (h : packet ∈ s.onChunk formats p body nowMs files) :
    packet.header.channel = .resourceTransfer ∧ s.admission.stateOf p = some .ready := by
  unfold ServerState.onChunk at h
  split at h
  · rename_i reply hserve
    refine ⟨channel_of_send h, ?_⟩
    by_contra hready
    rw [decide_eq_false hready] at hserve
    cases hserve
  · cases h

theorem admission_enter : (s.enter codec p).admission = s.admission := by
  unfold ServerState.enter
  split <;> rfl

end Sending

variable [ToString Peer] (codec : UlidCodec)

inductive Received (s : ServerState Peer) : Input Peer → ServerState Peer × List Packet → Prop
  | dropped {a} (hcalled : called formats s (.datagram a) = none) :
      Received s (.datagram a) (s, [])
  | served {a body} (hcalled : called formats s (.datagram a) = none)
      (hstate : s.admission.stateOf a.peer ≠ some .rejected) :
      Received s (.datagram a) (s, s.onChunk formats a.peer body a.call.nowMs a.files)
  | answered {a msg} (hcalled : called formats s (.datagram a) = some (.handle a.peer msg a.call))
      (hstate : s.admission.stateOf a.peer ≠ some .rejected) :
      Received s (.datagram a) (s.onAuth formats codec a.peer msg a.call)
  | published {entries} :
      Received s (.setManifest entries)
        ({ s with admission := s.admission.setManifest entries }, [])

variable {formats} {codec} {s : ServerState Peer} {a : Arrival Peer} {p : Peer}

theorem admission_onAuth {msg : HandshakeMessage} {call : Call} :
    (s.onAuth formats codec p msg call).1.admission = (s.admission.handle codec p msg call).1 := by
  unfold ServerState.onAuth
  dsimp only
  split
  · exact admission_enter
  · rfl

variable (formats codec) in
theorem received (s : ServerState Peer) (i : Input Peer) :
    Received formats codec s i (s.step formats codec i) := by
  cases i with
  | setManifest entries => exact .published
  | datagram a =>
    rw [ServerState.step, ServerState.receive]
    split
    · exact .dropped (called_of_error ‹_›)
    · rename_i packet hdecode
      have hcalled := called_of_ok formats s hdecode
      split
      · rename_i hrefused
        rw [if_neg (fun h ↦ by simp [h.1] at hrefused)] at hcalled
        exact .dropped hcalled
      · rename_i hadmitted
        have hpassed : s.admitPacket a.peer packet.header.channel a.limited = true := by
          simpa using hadmitted
        have hstate : s.admission.stateOf a.peer ≠ some .rejected := by
          intro hrejected
          rw [admitPacket_rejected hrejected] at hpassed
          cases hpassed
        split
        · rename_i hauth
          rw [if_pos ⟨hpassed, hauth⟩] at hcalled
          split
          · rename_i hread
            rw [hread] at hcalled
            exact .dropped hcalled
          · rename_i msg hread
            rw [hread] at hcalled
            exact .answered hcalled hstate
        · rename_i hchunk
          rw [if_neg (fun h ↦ Channel.noConfusion (hchunk.symm.trans h.2))] at hcalled
          exact .served hcalled hstate
        · rename_i hauth _
          rw [if_neg (fun h ↦ hauth h.2)] at hcalled
          exact .dropped hcalled

theorem admission_step (s : ServerState Peer) (i : Input Peer) :
    (s.step formats codec i).1.admission =
      (called formats s i).elim s.admission (fun op ↦ (Manager.step codec s.admission op).1) := by
  have hreceived := received formats codec s i
  generalize s.step formats codec i = result at hreceived
  cases hreceived with
  | dropped hcalled | served hcalled => rw [hcalled, Option.elim_none]
  | answered hcalled =>
    rw [hcalled, Option.elim_some]
    exact admission_onAuth
  | published => rfl

/-- Since its last accepted hello `p` answered the challenge and then became ready. -/
def Challenged (codec : UlidCodec) (p : Peer) (history : List (Event Peer)) : Prop :=
  (∃ x ∈ history, acceptedHello p x = true) ∧
    Reached (acceptedHello p) [AnsweredChallenge p, BecameReady codec p] history

structure Shown (codec : UlidCodec) (p : Peer) (history : List (Event Peer))
    (s : AdmissionSession) : Prop where
  hello : ∃ x ∈ history, acceptedHello p x = true
  known : s.aldivineId ≠ none → Reached (acceptedHello p) [AnsweredChallenge p] history
  ready : s.state = .ready →
    Reached (acceptedHello p) [AnsweredChallenge p, BecameReady codec p] history

section Walking

variable {m : AdmissionManager Peer} {history : List (Event Peer)}

theorem Shown.skip {s : AdmissionSession} {x : Event Peer} (h : Shown codec p history s)
    (hx : acceptedHello p x = false) : Shown codec p (history ++ [x]) s where
  hello := by
    obtain ⟨y, hy, hhello⟩ := h.hello
    exact ⟨y, List.mem_append_left _ hy, hhello⟩
  known hk := (h.known hk).skip hx
  ready hr := (h.ready hr).skip hx

theorem Shown.move {s : AdmissionSession} {state : HandshakeState} (h : Shown codec p history s)
    (hstate : state ≠ .ready) : Shown codec p history { s with state := state } where
  hello := h.hello
  known := h.known
  ready hr := absurd hr hstate

theorem shown_handle {msg : HandshakeMessage} {call : Call}
    (h : ∀ s, m.session p = some s → Shown codec p history s) :
    ∀ s, (m.handle codec p msg call).1.session p = some s →
      Shown codec p (history ++ [(m, .handle p msg call)]) s := by
  obtain ⟨m', reply, he, hmove⟩ := exists_move codec call m p msg
  rw [he]
  intro s' hs'
  cases hmove with
  | refuse code reason hhello => exact (h s' hs').skip (by simp [acceptedHello, hhello])
  | greet build edition clientVersion =>
    obtain rfl := Option.some.inj (session_onHello_self.symm.trans hs')
    exact ⟨⟨_, List.mem_append_right _ List.mem_cons_self, by simp [acceptedHello, Op.helloPeer]⟩,
      fun hk ↦ absurd rfl hk, (fun hr ↦ by cases hr)⟩
  | authFail hs hw =>
    obtain rfl := Option.some.inj ((session_setState_eq _ hs).symm.trans hs')
    exact ((h _ hs).move (by decide)).skip rfl
  | @authenticate s id token platform hs hw hid =>
    obtain rfl := Option.some.inj ((session_updateSession_eq _ hs).symm.trans hs')
    let x : Event Peer := (m, .handle p (.clientAuth id token platform (some s.nonce)) call)
    have hauth : AnsweredChallenge p x := ⟨s, id, token, platform, call, hs, hw, rfl⟩
    exact ⟨((h s hs).skip (x := x) rfl).hello, fun _ ↦ (reached_nil history).next rfl hauth,
      (fun hr ↦ by cases hr)⟩
  | identityFail hs hid =>
    obtain rfl := Option.some.inj ((session_setState_eq _ hs).symm.trans hs')
    exact ((h _ hs).move (by decide)).skip rfl
  | identify hs hid =>
    obtain rfl := Option.some.inj ((session_setState_eq _ hs).symm.trans hs')
    exact ((h _ hs).move (by decide)).skip rfl
  | entitle | rejoin => exact (h s' hs').skip rfl
  | @join s id hs hid hr hadm =>
    obtain rfl := Option.some.inj ((session_setState_eq _ (by exact hs)).symm.trans hs')
    let x : Event Peer := (m, .handle p .clientReady call)
    have hready : BecameReady codec p x := by
      refine ⟨call, rfl, by simpa [x, stateOf, hs] using hr, ?_⟩
      have hafter : (Manager.step codec x.1 x.2).1.session p =
          some { s with state := .ready } := by
        simp only [x, Manager.step, he, hs']
      simp only [stateOf, hafter, Option.map_some]
    have hk : s.aldivineId ≠ none := by simp [hid]
    have hskip := (h s hs).skip (x := x) rfl
    exact ⟨hskip.hello, fun _ ↦ hskip.known hk, fun _ ↦ ((h s hs).known hk).next rfl hready⟩
  | @enqueue s id hs hid hr hb hadm hp hw =>
    obtain rfl := Option.some.inj ((session_updateSession_eq _ (by exact hs)).symm.trans hs')
    have hskip := (h s hs).skip (x := (m, .handle p .clientReady call)) rfl
    exact ⟨hskip.hello, hskip.known, hskip.ready⟩
  | turnAway hs hid hr hadm reason =>
    obtain rfl := Option.some.inj ((session_setState_eq _ hs).symm.trans hs')
    exact ((h _ hs).move (by decide)).skip rfl

theorem shown_step {op : Op Peer} (h : ∀ s, m.session p = some s → Shown codec p history s) :
    ∀ s, (Manager.step codec m op).1.session p = some s →
      Shown codec p (history ++ [(m, op)]) s := by
  intro s hs
  by_cases hop : op.peer = some p
  · cases op with
    | handle q msg call =>
      obtain rfl : q = p := Option.some.inj hop
      exact shown_handle h s hs
    | remove q =>
      obtain rfl : q = p := Option.some.inj hop
      rw [Manager.step, session_remove_self] at hs
      cases hs
    | setManifest entries => cases hop
  · rw [session_step_ne hop] at hs
    exact (h s hs).skip (acceptedHello_ne hop)

end Walking

theorem sent_onAuth {msg : HandshakeMessage} {call : Call} {packet : Packet}
    (h : packet ∈ (s.onAuth formats codec p msg call).2) :
    packet.header.channel = .auth ∨ packet.header.channel = .eventReliable ∧
      (s.onAuth formats codec p msg call).1.admission.stateOf p = some .ready := by
  rw [admission_onAuth]
  unfold ServerState.onAuth at h
  dsimp only at h
  split at h
  · rename_i hready
    rcases List.mem_append.mp h with hreply | hwelcome
    · obtain ⟨reply, -, hreply⟩ := List.mem_flatMap.mp hreply
      exact .inl (channel_of_sendReply hreply)
    · exact .inr ⟨channel_of_sendWelcome hwelcome,
        (handle_move codec call msg).ready_of_serverReady hready⟩
  · obtain ⟨reply, -, hreply⟩ := List.mem_flatMap.mp h
    exact .inl (channel_of_sendReply hreply)

theorem players_onAuth {msg : HandshakeMessage} {call : Call} {id : AldivinePlayerId}
    (h : id ∈ (s.onAuth formats codec p msg call).1.frameworkPlayers.players) :
    id ∈ s.frameworkPlayers.players ∨
      (s.onAuth formats codec p msg call).1.admission.stateOf p = some .ready ∧
      ((s.onAuth formats codec p msg call).1.admission.aldivineIdOf p).bind
        (AldivinePlayerId.fromString codec) = some id := by
  rw [admission_onAuth]
  unfold ServerState.onAuth at h
  dsimp only at h
  split at h
  · rename_i hready
    unfold ServerState.enter at h
    split at h
    · exact .inl h
    · rename_i joined hid
      unfold PlayerService.join at h
      split at h
      · exact .inl h
      · rcases (AList.mem_insert _).mp h with rfl | hold
        · exact .inr ⟨(handle_move codec call msg).ready_of_serverReady hready, hid⟩
        · exact .inl hold
  · exact .inl h

theorem step_rejected (h : s.admission.stateOf a.peer = some .rejected) :
    s.step formats codec (.datagram a) = (s, []) := by
  have hreceived := received formats codec s (.datagram a)
  generalize hresult : s.step formats codec (.datagram a) = result at hreceived
  cases hreceived with
  | dropped => rfl
  | served hcalled hstate => exact absurd h hstate
  | answered hcalled hstate => exact absurd h hstate

theorem rejected_step (h : s.admission.stateOf p = some .rejected) (i : Input Peer) :
    (s.step formats codec i).1.admission.stateOf p = some .rejected := by
  rw [admission_step]
  have hreceived := received formats codec s i
  generalize s.step formats codec i = result at hreceived
  cases hreceived with
  | dropped hcalled | served hcalled =>
    rw [hcalled]
    exact h
  | @answered a msg hcalled hstate =>
    have hne : (Op.handle a.peer msg a.call).peer ≠ some p := by
      intro heq
      rw [Option.some.inj heq] at hstate
      exact hstate h
    rw [hcalled, Option.elim_some, stateOf, session_step_ne hne]
    exact h
  | published => exact h

section Runs

variable (formats codec)

abbrev after (start : ServerState Peer) (inputs : List (Input Peer)) : ServerState Peer :=
  run (ServerState.step formats codec) start inputs

abbrev callsOf (start : ServerState Peer) (inputs : List (Input Peer)) : List (Event Peer) :=
  calls formats (trace (ServerState.step formats codec) start inputs)

/-- The account is that of a peer which answered the challenge and became ready. -/
def Entered (id : AldivinePlayerId) (s : ServerState Peer) (history : List (Event Peer)) : Prop :=
  ∃ p, (s.admission.aldivineIdOf p).bind (AldivinePlayerId.fromString codec) = some id ∧
    Challenged codec p history

structure Gated (start : ServerState Peer) (inputs : List (Input Peer)) : Prop where
  sent : ∀ before a, before ++ [.datagram a] <+: inputs →
    ∀ packet ∈ ((after formats codec start before).step formats codec (.datagram a)).2,
      packet.header.channel = .auth ∨
      packet.header.channel = .resourceTransfer ∧
        Challenged codec a.peer (callsOf formats codec start before) ∨
      packet.header.channel = .eventReliable ∧
        Challenged codec a.peer (callsOf formats codec start (before ++ [.datagram a]))
  entered : ∀ id ∈ (after formats codec start inputs).frameworkPlayers.players,
    ∃ before, before <+: inputs ∧
      Entered codec id (after formats codec start before) (callsOf formats codec start before)
  shutOut : ∀ before p, before <+: inputs →
    (after formats codec start before).admission.stateOf p = some .rejected →
    ∀ a, a.peer = p → (after formats codec start inputs).step formats codec (.datagram a) =
      (after formats codec start inputs, [])

variable {formats codec} {start : ServerState Peer} {inputs : List (Input Peer)}

/-- Whoever has a session has shown what it takes. -/
theorem shown_run (hstart : ∀ p, start.admission.session p = none) (inputs : List (Input Peer)) :
    ∀ p session, (after formats codec start inputs).admission.session p = some session →
      Shown codec p (callsOf formats codec start inputs) session := by
  refine invariant_trace (P := fun _ _ ↦ True) (I := fun (s : ServerState Peer) tr ↦
    ∀ p session, s.admission.session p = some session → Shown codec p (calls formats tr) session)
    ?_ ?_ inputs (fun _ _ ↦ trivial)
  · intro s tr i h _ p session hsession
    rw [admission_step] at hsession
    rw [calls_concat]
    cases hcalled : called formats s i with
    | none =>
      rw [hcalled] at hsession
      rw [Option.map_none, Option.toList_none, List.append_nil]
      exact h p session hsession
    | some op =>
      rw [hcalled] at hsession
      exact shown_step (h p) session hsession
  · intro p session hsession
    rw [hstart p] at hsession
    cases hsession

variable (formats codec) in
theorem challenged_run (hstart : ∀ p, start.admission.session p = none)
    (inputs : List (Input Peer))
    (hready : (after formats codec start inputs).admission.stateOf p = some .ready) :
    Challenged codec p (callsOf formats codec start inputs) := by
  obtain ⟨session, hsession, hstate⟩ := Option.map_eq_some_iff.mp hready
  have hshown := shown_run hstart inputs p session hsession
  exact ⟨hshown.hello, hshown.ready hstate⟩

theorem sent_run (hstart : ∀ p, start.admission.session p = none) {packet : Packet}
    (h : packet ∈ ((after formats codec start inputs).step formats codec (.datagram a)).2) :
    packet.header.channel = .auth ∨
    packet.header.channel = .resourceTransfer ∧
      Challenged codec a.peer (callsOf formats codec start inputs) ∨
    packet.header.channel = .eventReliable ∧
      Challenged codec a.peer (callsOf formats codec start (inputs ++ [.datagram a])) := by
  have hready := challenged_run formats codec (p := a.peer) hstart (inputs ++ [.datagram a])
  rw [after, run_concat] at hready
  have hreceived := received formats codec
    (after formats codec start inputs) (.datagram a)
  generalize ServerState.step formats codec (after formats codec start inputs) (.datagram a) =
    result at h hready hreceived
  cases hreceived with
  | dropped => cases h
  | served hcalled hstate =>
    obtain ⟨hchannel, hready⟩ := ready_of_onChunk h
    exact .inr (.inl ⟨hchannel, challenged_run formats codec hstart inputs hready⟩)
  | answered hcalled hstate =>
    rcases sent_onAuth h with hauth | ⟨hchannel, hnow⟩
    · exact .inl hauth
    · exact .inr (.inr ⟨hchannel, hready hnow⟩)

theorem entered_run (hstart : ∀ p, start.admission.session p = none)
    (hplayers : start.frameworkPlayers.players = ∅) (inputs : List (Input Peer)) :
    ∀ id ∈ (after formats codec start inputs).frameworkPlayers.players,
      ∃ before, before <+: inputs ∧
        Entered codec id (after formats codec start before)
          (callsOf formats codec start before) := by
  induction inputs using List.reverseRecOn with
  | nil =>
    intro id hid
    rw [after, run_nil, hplayers] at hid
    cases hid
  | append_singleton inputs i ih =>
    intro id hid
    by_cases hold : id ∈ (after formats codec start inputs).frameworkPlayers.players
    · obtain ⟨before, hbefore, hentered⟩ := ih id hold
      exact ⟨before, hbefore.trans (List.prefix_append _ _), hentered⟩
    refine ⟨inputs ++ [i], List.prefix_rfl, ?_⟩
    have hready (p : Peer) := challenged_run formats codec (p := p) hstart (inputs ++ [i])
    rw [after, run_concat] at hid hready ⊢
    have hreceived := received formats codec
      (after formats codec start inputs) i
    generalize ServerState.step formats codec (after formats codec start inputs) i =
      result at hid hready hreceived ⊢
    cases hreceived with
    | dropped | served | published => exact absurd hid hold
    | @answered a msg hcalled hstate =>
      obtain ⟨hstate, hsame⟩ := (players_onAuth hid).resolve_left hold
      exact ⟨a.peer, hsame, hready a.peer hstate⟩

variable (formats codec) in
theorem rejected_run (h : start.admission.stateOf p = some .rejected) (inputs : List (Input Peer)) :
    (after formats codec start inputs).admission.stateOf p = some .rejected :=
  invariant_all (I := fun s : ServerState Peer ↦ s.admission.stateOf p = some .rejected)
    (fun _ i hs ↦ rejected_step hs i) h inputs

variable (formats codec) in
/-- Whatever arrives, files and the welcome go only to a peer that has answered the challenge and
become ready since its last hello, only the account of such a peer joins the framework's players,
and a peer that was rejected is never heard again. -/
theorem gated (name : String) (maxPlayers : UInt32) (directory : String)
    (identityReq : IdentityRequirements) (inputs : List (Input Peer)) :
    Gated formats codec (.new name maxPlayers directory identityReq) inputs where
  sent before a _ packet hpacket := sent_run (fun _ ↦ rfl) hpacket
  entered := entered_run (fun _ ↦ rfl) rfl inputs
  shutOut before p hbefore hrejected a ha := by
    obtain ⟨rest, rfl⟩ := hbefore
    have hlater := rejected_run formats codec hrejected rest
    rw [after, ← run_append] at hlater
    exact step_rejected (ha ▸ hlater)

end Runs

end Aldivine.Admission.Ingress
