import Mathlib.Data.List.Basic

namespace Aldivine.Admission.Handshake

def protocolVersion : UInt16 := 1

def rejectProtocol : String := "ALD-PROTO-001"

def rejectAuth : String := "ALD-AUTH-001"

def rejectIdentity : String := "ALD-IDENTITY-001"

def rejectEntitlement : String := "ALD-ENT-001"

def rejectServerFull : String := "ALD-QUEUE-001"

def rejectDeferral : String := "ALD-QUEUE-002"

inductive HandshakeState
  | idle
  | waitingHello
  | waitingAuth
  | waitingIdentity
  | waitingEntitlement
  | waitingDeferrals
  | waitingQueue
  | waitingManifest
  | ready
  | rejected
  | failed
deriving DecidableEq

def HandshakeState.isTerminal : HandshakeState → Bool
  | .ready | .rejected | .failed => true
  | _ => false

structure ResourceEntry where
  name : String
  hash : String
  size : UInt64
deriving DecidableEq

inductive HandshakeMessage
  | clientHello (protocolVersion : UInt16) (build : UInt32) (edition clientVersion : String)
  | serverHello (protocolVersion : UInt16) (sessionId : UInt64) (serverName : String)
      (maxPlayers : UInt32) (features : List String)
  | authChallenge (nonce : String)
  | clientAuth (aldivineId : String) (token platform challengeResponse : Option String)
  | authResult (accepted : Bool) (message : String)
  | identityRequest
  | identityResponse (aldivineId : String) (platformId : Option String) (entitlement : String)
      (deviceId : Option String)
  | entitlementRequest
  | entitlementResult (state message : String)
  | deferralUpdate (message : String)
  | deferralDone
  | queueUpdate (position totalQueued : ℕ)
  | queueAdmitted
  | manifestOffer (resources : List ResourceEntry)
  | clientReady
  | serverReady (worldJoin : Bool)
  | reject (code reason : String)
deriving DecidableEq

end Aldivine.Admission.Handshake
