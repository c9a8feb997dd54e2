import Aldivine.Config.Parsing
import Aldivine.Foundation.Fallible
import Aldivine.Foundation.Decimals
import Aldivine.Foundation.Text
import Mathlib.Data.List.Basic
import Mathlib.Data.List.Infix
import Std.Data.ExtTreeMap

namespace Aldivine.Config.Normalizing

open Foundation.Fallible Foundation.Numerals Foundation.Text Std Syntax

inductive NormalizeError
  | wrongArgCount (line : BitVec 32) (verb : String) (expected got : ℕ)
  | invalidValue (line : BitVec 32) (reason : String)
  | directiveForbiddenInInclude (line : BitVec 32) (verb : String)
  | emptySecret (line : BitVec 32)
  | secretProvider (handle reason : String)
deriving DecidableEq

inductive ConvarScope
  | «local»
  | replicated
  | «public»
deriving DecidableEq

def ConvarScope.debug : ConvarScope → String
  | .local => "Local"
  | .replicated => "Replicated"
  | .public => "Public"

structure Convar where
  scope : ConvarScope
  value : String
  sourceLine : BitVec 32
deriving DecidableEq

structure SecretHandle where
  provider : String
  key : String
deriving DecidableEq

structure SecretConvar where
  handle : SecretHandle
  sourceLine : BitVec 32
deriving DecidableEq

structure AceRule where
  principal : String
  object : String
  allow : Bool
  sourceLine : BitVec 32
deriving DecidableEq

structure PrincipalRule where
  principal : String
  parent : String
  add : Bool
  sourceLine : BitVec 32
deriving DecidableEq

structure ResourceDirective where
  action : String
  name : String
  sourceLine : BitVec 32
deriving DecidableEq

inductive EndpointTransport
  | tcp
  | udp
deriving DecidableEq

structure EndpointSpec where
  addr : String
  transport : EndpointTransport
  sourceLine : BitVec 32
deriving DecidableEq

structure NormalizedServerConfig where
  hostname : Option String
  projectName : Option String
  projectDesc : Option String
  maxClients : Option (BitVec 32)
  endpoint : Option String
  endpoints : List EndpointSpec
  tags : List String
  locale : Option String
  icon : Option String
  gameBuild : Option String
  isPublic : Bool
  listing : Bool
  projectId : Option String
  serverId : Option String
  licenseMode : Option String
  aldivineLicenseKey : Option SecretConvar
  fivemLicenseKey : Option String
  legacyMysql : Option String
  convars : ExtTreeMap String Convar
  secrets : ExtTreeMap String SecretConvar
  ace : List AceRule
  principals : List PrincipalRule
  resources : List ResourceDirective
  includes : List String
  warnings : List String

abbrev Normalized := Except NormalizeError NormalizedServerConfig

namespace NormalizedServerConfig

def default : NormalizedServerConfig where
  hostname := none
  projectName := none
  projectDesc := none
  maxClients := none
  endpoint := none
  endpoints := []
  tags := []
  locale := none
  icon := none
  gameBuild := none
  isPublic := false
  listing := false
  projectId := none
  serverId := none
  licenseMode := none
  aldivineLicenseKey := none
  fivemLicenseKey := none
  legacyMysql := none
  convars := ∅
  secrets := ∅
  ace := []
  principals := []
  resources := []
  includes := []
  warnings := []

end NormalizedServerConfig

section Values

def toAsciiLowercase (s : String) : String := String.ofList (s.toList.map Char.toLower)

def knownProviders : List String := ["env", "file", "credman", "vault", "kms"]

def SecretHandle.parse (spec : String) : Except NormalizeError SecretHandle :=
  let spec := trim spec
  if spec = "" then .error (.emptySecret 0)
  else
    match splitOnce ':' spec with
    | some (provider, key) =>
      if provider = "" then .ok ⟨"env", spec⟩
      else if trim key = "" then .error (.emptySecret 0)
      else
        let provider := toAsciiLowercase (trim provider)
        if provider ∉ knownProviders then
          .error (.secretProvider spec ("unknown provider `" ++ provider ++ "`"))
        else .ok ⟨provider, trim key⟩
    | none => .ok ⟨"env", spec⟩

def parseGrant (raw : String) (line : BitVec 32) : Except NormalizeError Bool :=
  let grant := toAsciiLowercase (trim raw)
  if grant = "allow" then .ok true
  else if grant = "deny" then .ok false
  else .error (.invalidValue line ("ace rule must be `allow` or `deny`, got `" ++ grant ++ "`"))

def parseBool (raw : String) (line : BitVec 32) (ctx : String) : Except NormalizeError Bool :=
  let word := toAsciiLowercase (trim raw)
  if word ∈ ["true", "1", "yes", "on"] then .ok true
  else if word ∈ ["false", "0", "no", "off"] then .ok false
  else .error (.invalidValue line ("`" ++ ctx ++ "` expects a boolean, got `" ++ word ++ "`"))

def parseMaxClients (raw : String) (line : BitVec 32) : Except NormalizeError (BitVec 32) :=
  match parseUnsigned 32 raw.toList with
  | some n => .ok (BitVec.ofNat 32 n)
  | none =>
    .error (.invalidValue line ("sv_maxclients must be an integer, got `" ++ raw ++ "`"))

/-- `split([',', ' '])` without the empty parts. -/
def splitTags (raw : String) : List String :=
  ((raw.toList.splitOnP (fun c ↦ c == ',' || c == ' ')).filter (· ≠ [])).map String.ofList

def typedDirectives : List String :=
  ["sv_hostname", "sv_projectName", "sv_projectDesc", "sv_maxclients", "sv_endpoint", "sv_tags",
    "sv_locale", "sv_icon", "sv_gameBuild", "sv_public", "sv_listing", "endpoint_add_tcp",
    "endpoint_add_udp", "ald_projectId", "ald_serverId", "ald_licenseKey", "license_mode"]

def isTypedDirective (name : String) : Bool := decide (name ∈ typedDirectives)

def looksSecret (k : String) : Bool :=
  ["secret", "password", "passwd", "key", "token", "credential", "url", "dsn", "connection"].any
    (fun h ↦ decide (h.toList <:+: (toAsciiLowercase k).toList))

def kv (d : Directive) : Option (String × String) :=
  match d.args with
  | k :: v :: _ => some (k.asStr, v.asStr)
  | _ => none

end Values

namespace NormalizedServerConfig

variable (cfg : NormalizedServerConfig) (d : Directive) (line : BitVec 32)

/-- The value that a typed directive has in either of its forms: never the name. -/
def one : Except NormalizeError String :=
  okOr (if d.verb ∈ ["set", "setr", "sets"] then (kv d).map Prod.snd else d.firstArg)
    (.wrongArgCount line d.verb 1 d.args.length)

def applyTyped (verb : String) : Normalized :=
  match verb with
  | "sv_hostname" => do return { cfg with hostname := some (← one d line) }
  | "sv_projectName" => do return { cfg with projectName := some (← one d line) }
  | "sv_projectDesc" => do return { cfg with projectDesc := some (← one d line) }
  | "sv_maxclients" => do
    return { cfg with maxClients := some (← parseMaxClients (← one d line) line) }
  | "sv_endpoint" => do return { cfg with endpoint := some (← one d line) }
  | "sv_tags" => do return { cfg with tags := splitTags (← one d line) }
  | "sv_locale" => do return { cfg with locale := some (← one d line) }
  | "sv_icon" => do return { cfg with icon := some (← one d line) }
  | "sv_gameBuild" => do return { cfg with gameBuild := some (← one d line) }
  | "sv_public" => do return { cfg with isPublic := ← parseBool (← one d line) line "sv_public" }
  | "sv_listing" => do return { cfg with listing := ← parseBool (← one d line) line "sv_listing" }
  | "ald_projectId" => do return { cfg with projectId := some (← one d line) }
  | "ald_serverId" => do return { cfg with serverId := some (← one d line) }
  | "license_mode" => do return { cfg with licenseMode := some (← one d line) }
  | "ald_licenseKey" => do
    let handle ← SecretHandle.parse (← one d line)
    return { cfg with aldivineLicenseKey := some ⟨handle, line⟩ }
  | "sv_licenseKey" => do
    return { cfg with
      fivemLicenseKey := some (← one d line)
      warnings := cfg.warnings ++ ["line " ++ toString line.toNat ++ ": sv_licenseKey is a FiveM " ++
        "compatibility marker; it is not an Aldivine license"] }
  | verb =>
    match d.firstArg with
    | some v => .ok { cfg with convars := cfg.convars.insert verb ⟨.local, v, line⟩ }
    | none => .ok cfg

def scopeOf (verb : String) : ConvarScope :=
  if verb = "set" then .local else if verb = "setr" then .replicated else .public

def applyConvar : Normalized := do
  let (k, v) ← okOr (kv d) (.wrongArgCount line d.verb 2 d.args.length)
  let scope := scopeOf d.verb
  match cfg.convars[k]? with
  | some existing =>
    refuse (existing.scope ≠ scope) (.invalidValue line ("convar `" ++ k ++
      "` declared with conflicting scope (was " ++ existing.scope.debug ++ ", now " ++
      scope.debug ++ ")"))
  | none => .ok ()
  return { cfg with
    convars := cfg.convars.insert k ⟨scope, v, line⟩
    legacyMysql := if k = "mysql_connection_string" then some v else cfg.legacyMysql }

def applySecret : Normalized := do
  let (k, spec) ← okOr (kv d) (.wrongArgCount line d.verb 2 d.args.length)
  let handle ← SecretHandle.parse spec
  return { cfg with secrets := cfg.secrets.insert k ⟨handle, line⟩ }

def applyResource : Normalized := do
  let name ← okOr d.firstArg (.wrongArgCount line d.verb 1 d.args.length)
  return { cfg with resources := cfg.resources ++ [⟨d.verb, name, line⟩] }

/-- A removed permission is a denied one. -/
def applyAce : Normalized :=
  match d.args with
  | p :: o :: a :: _ => do
    let granted ← parseGrant a.asStr line
    let allow := if d.verb = "add_ace" then granted else !granted
    return { cfg with ace := cfg.ace ++ [⟨p.asStr, o.asStr, allow, line⟩] }
  | _ => .error (.wrongArgCount line d.verb 3 d.args.length)

def applyPrincipal : Normalized := do
  let (principal, parent) ← okOr (kv d) (.wrongArgCount line d.verb 2 d.args.length)
  return { cfg with
    principals := cfg.principals ++ [⟨principal, parent, decide (d.verb = "add_principal"), line⟩] }

def applyEndpoint : Normalized := do
  let addr ← okOr d.firstArg (.wrongArgCount line d.verb 1 d.args.length)
  let transport : EndpointTransport := if d.verb = "endpoint_add_tcp" then .tcp else .udp
  return { cfg with endpoints := cfg.endpoints ++ [⟨addr, transport, line⟩] }

def applyDirective : Normalized :=
  if d.verb ∈ ["set", "setr", "sets"] then
    match kv d with
    | some (k, _) => if isTypedDirective k then cfg.applyTyped d line k else cfg.applyConvar d line
    | none => cfg.applyConvar d line
  else if d.verb = "set_secret" then cfg.applySecret d line
  else if d.verb ∈ ["ensure", "start", "stop", "restart"] then cfg.applyResource d line
  else if d.verb ∈ ["add_ace", "remove_ace"] then cfg.applyAce d line
  else if d.verb ∈ ["add_principal", "remove_principal"] then cfg.applyPrincipal d line
  else if d.verb ∈ ["endpoint_add_tcp", "endpoint_add_udp"] then cfg.applyEndpoint d line
  else if d.verb = "exec" then .error (.directiveForbiddenInInclude line "exec")
  else cfg.applyTyped d line d.verb

def licenseModes : List String :=
  ["free", "aldivine", "paid", "subscription", "private", "developer", "beta", "invite_only"]

/-- `validate`; `environment` is what `env::var` gives for a name. -/
def validate (environment : String → Option String) : Except NormalizeError Unit := do
  match cfg.maxClients with
  | some n =>
    refuse (n = 0 ∨ n > 1024)
      (.invalidValue 0 ("sv_maxclients out of range (1..=1024): " ++ toString n.toNat))
  | none => .ok ()
  cfg.convars.toList.forM fun (k, c) ↦
    refuse (c.scope = .public ∧ looksSecret k) (.invalidValue c.sourceLine ("convar `" ++ k ++
      "` looks secret but is declared `sets` (public metadata); use set_secret instead"))
  cfg.secrets.toList.forM fun (k, s) ↦ do
    match cfg.convars[k]? with
    | some c =>
      refuse (c.scope ≠ .local) (.invalidValue c.sourceLine
        ("convar `" ++ k ++ "` has both a secret and a replicated/public value"))
    | none => .ok ()
    refuse (environment s.handle.key = some "") (.emptySecret s.sourceLine)
  match cfg.licenseMode with
  | some mode => refuse (mode ∉ licenseModes) (.invalidValue 0 ("unknown license_mode `" ++ mode ++ "`"))
  | none => .ok ()

end NormalizedServerConfig

def directives (doc : Document) : List (BitVec 32 × Directive) :=
  doc.lines.filterMap fun l ↦
    match l.kind with
    | .directive d => some (l.lineNo, d)
    | _ => none

def fromDocument (environment : String → Option String) (doc : Document) : Normalized := do
  let cfg ← (directives doc).foldlM (fun cfg x ↦ cfg.applyDirective x.2 x.1) .default
  cfg.validate environment
  return cfg

end Aldivine.Config.Normalizing
