import Aldivine.Core.Basics

namespace Aldivine.Identity.Policy

open Core.PlayerId

inductive Entitlement
  | verified
  | notOwned
  | notLoggedIn
  | unavailable
  | unknown
  | error
deriving DecidableEq

def Entitlement.asCode : Entitlement → String
  | .verified => "VERIFIED"
  | .notOwned => "NOT_OWNED"
  | .notLoggedIn => "NOT_LOGGED_IN"
  | .unavailable => "UNAVAILABLE"
  | .unknown => "UNKNOWN"
  | .error => "ERROR"

structure SteamIdentity where
  steamId64 : String
  steamHex : String
  verified : Bool
deriving DecidableEq

structure RockstarIdentity where
  accountId : Option String
  entitlement : Entitlement
  verified : Bool
deriving DecidableEq

structure EpicIdentity where
  accountId : Option String
  verified : Bool
deriving DecidableEq

structure DeviceIdentity where
  deviceId : String
  confidence : String
  version : UInt8
  firstSeen : UInt64
  lastSeen : UInt64
deriving DecidableEq

structure PlayerIdentity where
  aldivineId : AldivinePlayerId
  rockstar : RockstarIdentity
  steam : Option SteamIdentity
  epic : EpicIdentity
  device : Option DeviceIdentity
  remoteIp : String
deriving DecidableEq

def PlayerIdentity.new (aldivineId : AldivinePlayerId) : PlayerIdentity where
  aldivineId := aldivineId
  rockstar := ⟨none, .unknown, false⟩
  steam := none
  epic := ⟨none, false⟩
  device := none
  remoteIp := ""

structure ConnectionRejection where
  code : String
  reason : String
  internalDetail : String
deriving DecidableEq

/-- The requirements of `server.toml` that the policy stage reads. -/
structure IdentityRequirements where
  requireAldivineAccount : Bool
  requireGtaEntitlement : Bool
  requireRockstar : Bool
  requireSteam : Bool
  requireEpic : Bool
  requireDeviceId : Bool
deriving DecidableEq

def IdentityRequirements.lenient : IdentityRequirements :=
  ⟨false, false, false, false, false, false⟩

inductive PolicyOutcome
  | pass
  | reject (rejection : ConnectionRejection)
deriving DecidableEq

def checkIdentityPolicy (codec : UlidCodec) (identity : PlayerIdentity)
    (req : IdentityRequirements) : PolicyOutcome :=
  if req.requireAldivineAccount && (identity.aldivineId.display codec).isEmpty then
    .reject ⟨"ALD-IDENTITY-001", "Unable to validate Aldivine session.",
      "aldivine_player_id missing at policy stage"⟩
  else if req.requireGtaEntitlement && identity.rockstar.entitlement != .verified then
    .reject ⟨"ALD-GAME-002", "GTA V entitlement verification failed.",
      "rockstar entitlement " ++ identity.rockstar.entitlement.asCode⟩
  else if req.requireRockstar &&
      (!identity.rockstar.verified || identity.rockstar.accountId.isNone) then
    .reject ⟨"ALD-IDENTITY-001", "Unable to validate Aldivine session.",
      "rockstar identity required but unverified"⟩
  else if req.requireSteam && identity.steam.isNone then
    .reject ⟨"ALD-STEAM-001", "This server requires Steam identity.",
      "steam identity required but absent"⟩
  else if req.requireEpic && (identity.epic.accountId.isNone || !identity.epic.verified) then
    .reject ⟨"ALD-IDENTITY-001", "Unable to validate Aldivine session.",
      "epic identity required but unverified"⟩
  else if req.requireDeviceId && identity.device.isNone then
    .reject ⟨"ALD-DEVICE-001", "Device identity could not be generated.",
      "device identity required but absent"⟩
  else .pass

end Aldivine.Identity.Policy
