import Mathlib.Data.Int.Notation
import Aldivine.Foundation.Fallible

namespace Aldivine.Manifests.Model

inductive ManifestError
  | syntaxError (line : ℕ) (msg : String)
  | invalidValue (directive : String) (line : ℕ) (msg : String)
  | missingRequired (name : String)
deriving DecidableEq

inductive Tok (F : Type)
  | ident (name : String)
  | str (text : String)
  | num (n : F)
  | lBrace
  | rBrace
  | assign
  | comma
deriving DecidableEq

/-- The arithmetic of `f64` values `F` and the `{:?}` rendering of tokens. -/
structure Host (F : Type) where
  parseF64 : String → Option F
  zero : F
  /-- `n as i64`, where `n` has no fraction and its magnitude is at most `i64::MAX as f64`. -/
  asInt : F → Option ℤ
  ofInt : ℤ → F
  debug : Tok F → String

inductive ManifestValue (F : Type)
  | nil
  | bool (b : Bool)
  | int (n : ℤ)
  | float (n : F)
  | str (text : String)
  | list (items : List (ManifestValue F))
  | table (entries : List (String × ManifestValue F))

structure DataFile where
  kind : String
  file : String

structure ConvarVar (F : Type) where
  convar : String := ""
  name : Option String := none
  help : Option String := none
  default : Option (ManifestValue F) := none
  min : Option F := none
  max : Option F := none
  kind : Option String := none

structure ConvarCategory (F : Type) where
  name : String
  vars : List (ConvarVar F)

inductive DirectiveStatus
  | supported
  | translated
  | ignoredWarn
  | unsupported
deriving DecidableEq

structure DirectiveRecord where
  name : String
  status : DirectiveStatus
  line : ℕ
  note : String
deriving DecidableEq

structure NormalizedManifest (F : Type) where
  fxVersion : Option String := none
  resourceManifestVersion : Option String := none
  game : List String := []
  clientScripts : List String := []
  serverScripts : List String := []
  sharedScripts : List String := []
  files : List String := []
  uiPage : Option String := none
  exports : List String := []
  serverExports : List String := []
  dependencies : List String := []
  provides : List String := []
  thisIsAMap : Bool := false
  dataFiles : List DataFile := []
  beforeLevelMeta : List String := []
  afterLevelMeta : List String := []
  replaceLevelMeta : List String := []
  loadscreen : Option String := none
  loadscreenManualShutdown : Bool := false
  serverOnly : Bool := false
  lua54 : Bool := false
  nodeVersion : Option String := none
  clrDisableTaskScheduler : Bool := false
  useExperimentalFxv2Oal : Bool := false
  convarCategories : List (ConvarCategory F) := []
  escrowIgnore : Bool := false
  custom : List (String × ManifestValue F) := []
  directives : List DirectiveRecord := []

section Values

variable {F : Type}

def ManifestValue.asStr : ManifestValue F → Option String
  | .str text => some text
  | _ => none

def ManifestValue.asBool : ManifestValue F → Option Bool
  | .bool b => some b
  | _ => none

def ManifestValue.asSequence : ManifestValue F → Option (List (ManifestValue F))
  | .list items => some items
  | .table entries =>
    if entries.zipIdx.all (fun x ↦ x.1.1 == toString (x.2 + 1)) then some (entries.map Prod.snd)
    else none
  | _ => none

/-- One member of a list of strings. -/
def ManifestValue.asItem : ManifestValue F → Except String String
  | .str text => .ok text
  | .int n => .ok (toString n)
  | .bool b => .ok (toString b)
  | _ => .error "list must contain only strings"

def ManifestValue.coerceStringList (value : ManifestValue F) : Except String (List String) :=
  match value.asStr with
  | some text => .ok [text]
  | none =>
    match value.asSequence with
    | none => .error "expected a list of strings"
    | some seq => seq.mapM asItem

end Values

section Directives

def supported : List String :=
  ["fx_version", "resource_manifest_version", "game", "games", "client_script", "client_scripts",
    "server_script", "server_scripts", "shared_script", "shared_scripts", "file", "files",
    "ui_page", "export", "exports", "server_export", "server_exports", "dependency",
    "dependencies", "provide", "this_is_a_map", "data_file", "before_level_meta",
    "after_level_meta", "replace_level_meta", "loadscreen", "loadscreen_manual_shutdown",
    "server_only", "lua54", "node_version", "clr_disable_task_scheduler",
    "use_experimental_fxv2_oal", "convar_category"]

def ignored : List String :=
  ["fxasset_escrow", "escrow_disable", "lua54_disabled", "author", "description", "repository",
    "version", "license"]

def classify (name : String) : DirectiveStatus :=
  if name ∈ supported then .supported
  else if name = "fileserver_add" then .translated
  else if name ∈ ignored then .ignoredWarn
  else .unsupported

def noteFor (name : String) : String :=
  if name = "fileserver_add" then
    "legacy file-server config; translated to Aldivine Streaming Engine / CDN origin"
  else if name = "use_experimental_fxv2_oal" then
    "OAL compatibility profile activated only when implemented"
  else if name = "convar_category" then "drives Aegis resource configuration UI"
  else ""

inductive ListField
  | game
  | clientScripts
  | serverScripts
  | sharedScripts
  | files
  | exports
  | serverExports
  | dependencies
  | provides
  | beforeLevelMeta
  | afterLevelMeta
  | replaceLevelMeta
deriving DecidableEq

variable {F : Type}

def ListField.get : ListField → NormalizedManifest F → List String
  | .game, out => out.game
  | .clientScripts, out => out.clientScripts
  | .serverScripts, out => out.serverScripts
  | .sharedScripts, out => out.sharedScripts
  | .files, out => out.files
  | .exports, out => out.exports
  | .serverExports, out => out.serverExports
  | .dependencies, out => out.dependencies
  | .provides, out => out.provides
  | .beforeLevelMeta, out => out.beforeLevelMeta
  | .afterLevelMeta, out => out.afterLevelMeta
  | .replaceLevelMeta, out => out.replaceLevelMeta

def ListField.extend (more : List String) :
    ListField → NormalizedManifest F → NormalizedManifest F
  | .game, out => { out with game := out.game ++ more }
  | .clientScripts, out => { out with clientScripts := out.clientScripts ++ more }
  | .serverScripts, out => { out with serverScripts := out.serverScripts ++ more }
  | .sharedScripts, out => { out with sharedScripts := out.sharedScripts ++ more }
  | .files, out => { out with files := out.files ++ more }
  | .exports, out => { out with exports := out.exports ++ more }
  | .serverExports, out => { out with serverExports := out.serverExports ++ more }
  | .dependencies, out => { out with dependencies := out.dependencies ++ more }
  | .provides, out => { out with provides := out.provides ++ more }
  | .beforeLevelMeta, out => { out with beforeLevelMeta := out.beforeLevelMeta ++ more }
  | .afterLevelMeta, out => { out with afterLevelMeta := out.afterLevelMeta ++ more }
  | .replaceLevelMeta, out => { out with replaceLevelMeta := out.replaceLevelMeta ++ more }

def listField (name : String) : Option ListField :=
  match name with
  | "game" | "games" => some .game
  | "client_script" | "client_scripts" => some .clientScripts
  | "server_script" | "server_scripts" => some .serverScripts
  | "shared_script" | "shared_scripts" => some .sharedScripts
  | "file" | "files" => some .files
  | "export" | "exports" => some .exports
  | "server_export" | "server_exports" => some .serverExports
  | "dependency" | "dependencies" => some .dependencies
  | "provide" => some .provides
  | "before_level_meta" => some .beforeLevelMeta
  | "after_level_meta" => some .afterLevelMeta
  | "replace_level_meta" => some .replaceLevelMeta
  | _ => none

end Directives

section Apply

variable {F : Type} (host : Host F)

def asF64 : ManifestValue F → Option F
  | .int n => some (host.ofInt n)
  | .float n => some n
  | _ => none

def setConvar (var : ConvarVar F) (entry : String × ManifestValue F) : ConvarVar F :=
  match entry.1 with
  | "convar" => { var with convar := entry.2.asStr.getD "" }
  | "name" => { var with name := entry.2.asStr }
  | "help" => { var with help := entry.2.asStr }
  | "default" => { var with default := some entry.2 }
  | "min" => { var with min := (asF64 host entry.2).or var.min }
  | "max" => { var with max := (asF64 host entry.2).or var.max }
  | "type" | "kind" => { var with kind := entry.2.asStr }
  | _ => var

def parseConvarVar (fail : String → ManifestError) :
    ManifestValue F → Except ManifestError (ConvarVar F)
  | .table entries =>
    let var := entries.foldl (setConvar host) {}
    if var.convar = "" then .error (fail "convar entry missing `convar` key") else .ok var
  | _ => .error (fail "each convar var must be a table")

def parseConvarCategory (value : ManifestValue F) (line : ℕ) (directive : String) :
    Except ManifestError (ConvarCategory F) :=
  let fail := ManifestError.invalidValue directive line
  match value.asSequence with
  | none => .error (fail "convar_category must be a table")
  | some (first :: second :: _) =>
    match first.asStr with
    | none => .error (fail "category name must be a string")
    | some name =>
      match second.asSequence with
      | none => .error (fail "convar vars must be a list of tables")
      | some seq => do
        let vars ← seq.mapM (parseConvarVar host fail)
        return ⟨name, vars⟩
  | some _ => .error (fail "convar_category needs a name and a var table")

def dataPair : ManifestValue F → Option DataFile
  | .table ((_, .str kind) :: (_, .str file) :: _) => some ⟨kind, file⟩
  | _ => none

def strList (field : ListField) (out : NormalizedManifest F) (name : String)
    (value : ManifestValue F) (line : ℕ) : Except ManifestError (NormalizedManifest F) := do
  let more ← value.coerceStringList.mapError (.invalidValue name line)
  return field.extend more out

/-- `apply`. The arms of the string-list directives are taken first. -/
def applyDirective (out : NormalizedManifest F) (name : String) (value : ManifestValue F)
    (line : ℕ) : Except ManifestError (NormalizedManifest F) :=
  let out := { out with
    directives := out.directives ++ [⟨name, classify name, line, noteFor name⟩] }
  match listField name with
  | some field => strList field out name value line
  | none =>
    match name with
    | "fx_version" => .ok { out with fxVersion := value.asStr }
    | "resource_manifest_version" => .ok { out with resourceManifestVersion := value.asStr }
    | "ui_page" => .ok { out with uiPage := value.asStr }
    | "this_is_a_map" => .ok { out with thisIsAMap := value.asBool.getD true }
    | "data_file" =>
      match dataPair value with
      | some pair => .ok { out with dataFiles := out.dataFiles ++ [pair] }
      | none => .error (.invalidValue name line "data_file requires \x7b 'TYPE', 'file' \x7d")
    | "loadscreen" => .ok { out with loadscreen := value.asStr }
    | "loadscreen_manual_shutdown" =>
      .ok { out with loadscreenManualShutdown := value.asBool.getD true }
    | "server_only" => .ok { out with serverOnly := value.asBool.getD true }
    | "lua54" => .ok { out with lua54 := value.asBool.getD true }
    | "node_version" => .ok { out with nodeVersion := value.asStr }
    | "clr_disable_task_scheduler" =>
      .ok { out with clrDisableTaskScheduler := value.asBool.getD true }
    | "use_experimental_fxv2_oal" =>
      .ok { out with useExperimentalFxv2Oal := value.asBool.getD true }
    | "convar_category" => do
      let category ← parseConvarCategory host value line name
      return { out with convarCategories := out.convarCategories ++ [category] }
    | "escrow_ignore" => .ok { out with escrowIgnore := value.asBool.getD true }
    | _ => .ok { out with custom := out.custom ++ [(name, value)] }

end Apply

end Aldivine.Manifests.Model
