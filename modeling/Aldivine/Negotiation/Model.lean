import Aldivine.Foundation.Fallible
import Aldivine.Foundation.Table

namespace Aldivine.Negotiation.Model

open Std Foundation.Fallible

def protocolVersion : BitVec 16 := 1

structure FeatureId where
  ns : String
  name : String
  version : BitVec 32
deriving DecidableEq

namespace FeatureId

def title (f : FeatureId) : String := f.ns ++ ":" ++ f.name

def key (f : FeatureId) : String := f.title ++ "@" ++ toString f.version.toNat

def sameFeature (f other : FeatureId) : Bool := f.ns == other.ns && f.name == other.name

end FeatureId

structure Hello where
  implName : String
  implVersion : String
  protocolMax : BitVec 16
  protocolMin : BitVec 16
  features : List FeatureId
  capabilities : List String

inductive FeatureOutcome
  | selected (f : FeatureId)
  | clientOnlyUnsupported (f : FeatureId)
  | requiresClientUpdate (f : FeatureId)
  | requiresServerUpdate (f : FeatureId)
  | disabledByPolicy (f : FeatureId)
deriving DecidableEq

def FeatureOutcome.isSelected : FeatureOutcome → Bool
  | .selected _ => true
  | _ => false

inductive UpgradeAction
  | updateClient (channel minVersion : String)
  | updateServer (channel minVersion : String)
  | unsupportedCombination
  | none
deriving DecidableEq

inductive ProtocolNegotiation
  | agreed (version : BitVec 16)
  | clientTooOld (clientVersion serverMin serverMax : BitVec 16) (action : UpgradeAction)
  | serverTooOld (clientVersion serverMax : BitVec 16) (action : UpgradeAction)
  | incompatible (reason : String) (action : UpgradeAction)
deriving DecidableEq

def ProtocolNegotiation.isAgreed : ProtocolNegotiation → Bool
  | .agreed _ => true
  | _ => false

structure NegotiatedSet where
  protocol : ProtocolNegotiation
  features : ExtTreeMap String FeatureOutcome
  sharedCapabilities : List String
  allowed : Bool
  summary : String

structure NegotiationPolicy where
  serverProtocolMin : BitVec 16
  serverProtocolMax : BitVec 16
  serverFeatures : List FeatureId
  serverCapabilities : List String
  disabled : List String
  strictRequiredFeatures : List FeatureId
  clientChannel : String
  clientMinVersion : String
  serverChannel : String
  serverMinVersion : String

def NegotiationPolicy.default : NegotiationPolicy where
  serverProtocolMin := 1
  serverProtocolMax := protocolVersion
  serverFeatures := []
  serverCapabilities := []
  disabled := []
  strictRequiredFeatures := []
  clientChannel := "stable"
  clientMinVersion := "1.0.0"
  serverChannel := "stable"
  serverMinVersion := "1.0.0"

inductive NegotiationError
  | clientTooOld (clientVersion serverMin serverMax : BitVec 16)
  | serverTooOld (clientVersion serverMax : BitVec 16)
  | incompatible (reason : String)
  | requiredFeatureMissing (f : FeatureId)
  | malformed (message : String)
deriving DecidableEq

def least (a b : BitVec 16) : BitVec 16 := if b < a then b else a

def negotiateProtocol (policy : NegotiationPolicy) (client : Hello) :
    Except NegotiationError ProtocolNegotiation :=
  if client.protocolMax < policy.serverProtocolMin then
    .ok (.clientTooOld client.protocolMax policy.serverProtocolMin policy.serverProtocolMax
      (.updateClient policy.clientChannel policy.clientMinVersion))
  else if client.protocolMin > policy.serverProtocolMax then
    .ok (.serverTooOld client.protocolMin policy.serverProtocolMax
      (.updateServer policy.serverChannel policy.serverMinVersion))
  else
    let common := least policy.serverProtocolMax client.protocolMax
    if common < least policy.serverProtocolMin client.protocolMax then
      .ok (.incompatible "no overlapping protocol version range" .unsupportedCombination)
    else .ok (.agreed common)

/-- Administratively turned off, by its key or in all of its versions. -/
def NegotiationPolicy.isDisabled (policy : NegotiationPolicy) (f : FeatureId) : Bool :=
  policy.disabled.any (fun d ↦ d == f.key || d == f.title)

def Hello.offers (client : Hello) (f : FeatureId) : Bool :=
  client.features.any (·.sameFeature f)

def ask (policy : NegotiationPolicy)
    (acc : ExtTreeMap String FeatureOutcome × List String) (cf : FeatureId) :
    ExtTreeMap String FeatureOutcome × List String :=
  let (features, problems) := acc
  if policy.isDisabled cf then (features.insert cf.key (.disabledByPolicy cf), problems)
  else
    match policy.serverFeatures.find? (·.sameFeature cf) with
    | none => (features.insert cf.key (.clientOnlyUnsupported cf), problems)
    | some sf =>
      if sf.version ≥ cf.version then (features.insert cf.key (.selected cf), problems)
      else
        (features.insert cf.key (.requiresServerUpdate sf),
          problems ++ ["feature " ++ cf.key ++ " needs server update"])

/-- One feature of the server that the client may not have asked about. -/
def offer (policy : NegotiationPolicy) (client : Hello)
    (features : ExtTreeMap String FeatureOutcome) (sf : FeatureId) :
    Except NegotiationError (ExtTreeMap String FeatureOutcome) :=
  if client.offers sf then .ok features
  else if policy.strictRequiredFeatures.any (·.sameFeature sf) then
    .error (.requiredFeatureMissing sf)
  else .ok (features.insert sf.key (.requiresClientUpdate sf))

/-- Capabilities of the client that the server names, or has a feature of that name for. -/
def shareCapabilities (policy : NegotiationPolicy) (client : Hello) : List String :=
  ((client.capabilities.filter (fun c ↦
    policy.serverCapabilities.contains c ||
      (policy.serverFeatures.map (·.name)).contains c)).mergeSort (· ≤ ·)).eraseReps

def summarize (features : ExtTreeMap String FeatureOutcome) (shared problems : List String)
    (allowed : Bool) : String :=
  if allowed then
    "protocol v" ++ toString protocolVersion.toNat ++ " agreed; " ++
      toString (features.values.countP FeatureOutcome.isSelected) ++ " features selected; " ++
      toString shared.length ++ " shared capabilities"
  else
    "negotiation failed: " ++ toString problems.length ++ " problems; first: " ++
      problems.head?.getD ""

def negotiate (policy : NegotiationPolicy) (client : Hello) :
    Except NegotiationError NegotiatedSet := do
  let protocol ← negotiateProtocol policy client
  let (features, problems) := client.features.foldl (ask policy) (∅, [])
  let features ← policy.serverFeatures.foldlM (offer policy client) features
  let shared := shareCapabilities policy client
  let allowed := protocol.isAgreed && problems.isEmpty
  return ⟨protocol, features, shared, allowed, summarize features shared problems allowed⟩

end Aldivine.Negotiation.Model
