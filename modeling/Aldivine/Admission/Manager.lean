import Aldivine.Admission.Handshake
import Aldivine.AdmissionQueue.Model
import Aldivine.Deferrals.Session
import Aldivine.Identity.Policy
import Mathlib.Data.List.AList

namespace Aldivine.Admission.Manager

open Foundation.Text Core.PlayerId Identity.Policy Deferrals.Session AdmissionQueue.Model Handshake

structure AdmissionSession where
  state : HandshakeState
  sessionId : UInt64
  aldivineId : Option String
  platform : Option String
  nonce : String
  polls : UInt64
  queuePosition : Option ℕ
deriving DecidableEq

def AdmissionSession.new (sessionId : UInt64) (nonce : String) : AdmissionSession :=
  ⟨.waitingAuth, sessionId, none, none, nonce, 0, none⟩

/-- The table of sessions is keyed by the peers' socket addresses, which are only compared and
displayed. -/
structure AdmissionManager (Peer : Type) where
  serverName : String
  maxPlayers : UInt32
  nextSession : UInt64
  sessions : AList (fun _ : Peer ↦ AdmissionSession)
  queue : Queue
  manifest : List ResourceEntry
  identityReq : IdentityRequirements

variable {Peer : Type}

/-- What the surroundings supply to one call: the socket's remote address, the clock, and the id
that `AldivinePlayerId::new` would draw. -/
structure Call where
  remoteIp : String
  nowMs : UInt64
  freshId : AldivinePlayerId
deriving DecidableEq

def Call.atTime (nowMs : UInt64) : Call := ⟨"127.0.0.1", nowMs, ⟨0⟩⟩

namespace AdmissionManager

def new (serverName : String) (maxPlayers : UInt32) (identityReq : IdentityRequirements) :
    AdmissionManager Peer where
  serverName := serverName
  maxPlayers := maxPlayers
  nextSession := 1
  sessions := ∅
  queue := Queue.new <|
    match QueueConfig.new maxPlayers.toNat 0 64 300000 with
    | .ok config => config
    | .error _ => ⟨maxPlayers.toNat, 0, 64, 300000⟩
  manifest := []
  identityReq := identityReq

def setManifest (m : AdmissionManager Peer) (entries : List ResourceEntry) :
    AdmissionManager Peer := { m with manifest := entries }

def sessionCount (m : AdmissionManager Peer) : ℕ := m.sessions.entries.length

variable [DecidableEq Peer]

def session (m : AdmissionManager Peer) (peer : Peer) : Option AdmissionSession :=
  m.sessions.lookup peer

def stateOf (m : AdmissionManager Peer) (peer : Peer) : Option HandshakeState :=
  (m.session peer).map (·.state)

def aldivineIdOf (m : AdmissionManager Peer) (peer : Peer) : Option String :=
  (m.session peer).bind (·.aldivineId)

/-- `if let Some(s) = self.sessions.get_mut(&peer)`. -/
def updateSession (m : AdmissionManager Peer) (peer : Peer)
    (f : AdmissionSession → AdmissionSession) : AdmissionManager Peer :=
  match m.session peer with
  | none => m
  | some s => { m with sessions := m.sessions.insert peer (f s) }

def setState (m : AdmissionManager Peer) (peer : Peer) (state : HandshakeState) :
    AdmissionManager Peer := m.updateSession peer (fun s ↦ { s with state := state })

def remove (m : AdmissionManager Peer) (peer : Peer) : AdmissionManager Peer × Bool :=
  match m.session peer with
  | none => (m, false)
  | some s =>
    let m := { m with sessions := m.sessions.erase peer }
    match s.aldivineId with
    | none => (m, true)
    | some id => ({ m with queue := ((m.queue.playingLeave id).1.queueLeave id).1 }, true)

def onHello [ToString Peer] (m : AdmissionManager Peer) (peer : Peer) (version : UInt16) :
    AdmissionManager Peer × List HandshakeMessage :=
  if version ≠ protocolVersion then (m, [.reject rejectProtocol "protocol version mismatch"])
  else
    let id := m.nextSession
    let nonce := "n-" ++ toString id ++ "-" ++ toString peer
    ({ m with
        nextSession := id + 1
        sessions := m.sessions.insert peer (.new id nonce) },
      [.serverHello protocolVersion id m.serverName m.maxPlayers
        ["deferrals", "queue", "manifest"],
        .authChallenge nonce])

def onAuth (m : AdmissionManager Peer) (peer : Peer) (aldivineId : String)
    (platform challengeResponse : Option String) :
    AdmissionManager Peer × List HandshakeMessage :=
  match m.session peer with
  | none => (m, [.reject rejectProtocol "auth before hello"])
  | some s =>
    if s.state ≠ .waitingAuth then (m, [.reject rejectProtocol "auth out of order"])
    else if isBlank aldivineId then
      (m.setState peer .rejected, [.reject rejectAuth "missing account id"])
    else if challengeResponse ≠ some s.nonce then
      (m.setState peer .rejected, [.reject rejectAuth "challenge failed"])
    else
      (m.updateSession peer (fun s ↦ { s with
          aldivineId := some aldivineId, platform := platform, state := .waitingIdentity }),
        [.authResult true "auth ok", .identityRequest])

def presentedIdentity (codec : UlidCodec) (call : Call) (aldivineId : String)
    (deviceId : Option String) : PlayerIdentity :=
  let parsed := (AldivinePlayerId.fromString codec aldivineId).getD call.freshId
  { PlayerIdentity.new parsed with
    remoteIp := call.remoteIp
    device := (deviceId.filter (fun d ↦ !isBlank d)).map
      (fun d ↦ ⟨d, "low", 1, call.nowMs, call.nowMs⟩) }

def pollDeferrals (call : Call) (aldivineId : String) : SessionOutcome :=
  let session : DeferralSession Unit := .new [⟨"ban-check", fun env _ ↦ (.pass, env)⟩] 10
  (session.poll () ⟨aldivineId, call.remoteIp, none⟩).1

def onIdentity (codec : UlidCodec) (m : AdmissionManager Peer) (peer : Peer)
    (aldivineId : String) (deviceId : Option String) (call : Call) :
    AdmissionManager Peer × List HandshakeMessage :=
  match m.session peer with
  | none => (m, [.reject rejectProtocol "identity before hello"])
  | some _ =>
    match checkIdentityPolicy codec (presentedIdentity codec call aldivineId deviceId)
        m.identityReq with
    | .reject r => (m.setState peer .rejected, [.reject rejectIdentity r.reason])
    | .pass =>
      let m := m.setState peer .waitingDeferrals
      match pollDeferrals call aldivineId with
      | .admitted => (m.setState peer .waitingQueue, [.deferralDone, .entitlementRequest])
      | .waiting message _ => (m, [.deferralUpdate message])
      | .denied code reason _ => (m.setState peer .rejected, [.reject code reason])

def onEntitlement (m : AdmissionManager Peer) (peer : Peer) :
    AdmissionManager Peer × List HandshakeMessage :=
  match m.session peer with
  | none => (m, [.reject rejectProtocol "entitlement before hello"])
  | some s =>
    if s.state ≠ .waitingQueue ∧ s.state ≠ .waitingDeferrals then
      (m, [.reject rejectEntitlement "entitlement out of order"])
    else (m, [.entitlementResult "FREE" "ok"])

def joinRefusal : RejectReason → HandshakeMessage
  | .serverFull | .queueFull => .reject rejectServerFull "server full, try again later"
  | .alreadyPresent => .reject rejectDeferral "already connected"
  | .invalidId => .reject rejectAuth "invalid account id"

def onReady (m : AdmissionManager Peer) (peer : Peer) (nowMs : UInt64) :
    AdmissionManager Peer × List HandshakeMessage :=
  match m.session peer with
  | none => (m, [.reject rejectProtocol "ready before hello"])
  | some s =>
    let id := s.aldivineId.getD ""
    if id.isEmpty then (m, [.reject rejectAuth "unknown session"])
    else if s.state = .ready then (m, [.serverReady true])
    else
      let (queue, outcome) := m.queue.join ⟨id, false⟩ nowMs
      let m := { m with queue := queue }
      match outcome with
      | .admitted =>
        let m := m.setState peer .waitingManifest
        (m.setState peer .ready, [.queueAdmitted, .manifestOffer m.manifest, .serverReady true])
      | .queued position =>
        let m := m.updateSession peer (fun s ↦ { s with queuePosition := some position })
        (m, [.queueUpdate position m.queue.queueLen, .manifestOffer m.manifest])
      | .rejected reason => (m.setState peer .rejected, [joinRefusal reason])

def handle [ToString Peer] (codec : UlidCodec) (m : AdmissionManager Peer) (peer : Peer)
    (msg : HandshakeMessage) (call : Call) : AdmissionManager Peer × List HandshakeMessage :=
  match msg with
  | .clientHello version _ _ _ => m.onHello peer version
  | .clientAuth aldivineId _ platform challengeResponse =>
    m.onAuth peer aldivineId platform challengeResponse
  | .identityResponse aldivineId _ _ deviceId =>
    m.onIdentity codec peer aldivineId deviceId call
  | .entitlementRequest => m.onEntitlement peer
  | .clientReady => m.onReady peer call.nowMs
  | _ => (m, [.reject rejectProtocol "out-of-order message for this session"])

end AdmissionManager

inductive Op (Peer : Type)
  | handle (peer : Peer) (msg : HandshakeMessage) (call : Call)
  | remove (peer : Peer)
  | setManifest (entries : List ResourceEntry)
deriving DecidableEq

namespace Op

def hello (peer : Peer) (call : Call) : Op Peer :=
  .handle peer (.clientHello protocolVersion 3095 "Enhanced" "0.1.0") call

def auth (peer : Peer) (aldivineId nonce : String) (call : Call) : Op Peer :=
  .handle peer (.clientAuth aldivineId none none (some nonce)) call

def identity (peer : Peer) (aldivineId : String) (deviceId : Option String) (call : Call) :
    Op Peer := .handle peer (.identityResponse aldivineId none "FREE" deviceId) call

def entitlement (peer : Peer) (call : Call) : Op Peer := .handle peer .entitlementRequest call

def ready (peer : Peer) (call : Call) : Op Peer := .handle peer .clientReady call

def peer : Op Peer → Option Peer
  | .handle peer _ _ => some peer
  | .remove peer => some peer
  | .setManifest _ => none

def helloPeer : Op Peer → Option Peer
  | .handle peer (.clientHello version _ _ _) _ =>
    if version = protocolVersion then some peer else none
  | _ => none

def identityPeer : Op Peer → Option Peer
  | .handle peer (.identityResponse ..) _ => some peer
  | _ => none

def removedPeer : Op Peer → Option Peer
  | .remove peer => some peer
  | _ => none

def readyPeer : Op Peer → Option Peer
  | .handle peer .clientReady _ => some peer
  | _ => none

theorem peer_of_helloPeer (op : Op Peer) {p : Peer} (h : op.helloPeer = some p) :
    op.peer = some p := by
  unfold helloPeer at h
  split at h
  · split at h
    · exact h
    · cases h
  · cases h

end Op

def step [DecidableEq Peer] [ToString Peer] (codec : UlidCodec) (m : AdmissionManager Peer) :
    Op Peer → AdmissionManager Peer × List HandshakeMessage
  | .handle peer msg call => m.handle codec peer msg call
  | .remove peer => ((m.remove peer).1, [])
  | .setManifest entries => (m.setManifest entries, [])

end Aldivine.Admission.Manager
