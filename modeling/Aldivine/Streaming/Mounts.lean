import Aldivine.Foundation.Fallible
import Aldivine.Foundation.Table
import Aldivine.Foundation.Text

namespace Aldivine.Streaming.Registries

open Foundation.Text

inductive StreamClass
  | texture
  | geometry
  | collision
  | map
  | animation
  | audio
  | metadata
  | data
deriving DecidableEq

/-- `rsplit(['/', '\\']).next()`. -/
def baseName (path : String) : List Char :=
  (path.toList.reverse.takeWhile (fun c ↦ c != '/' && c != '\\')).reverse

/-- `ext` of `base.rsplit_once('.')`. -/
def afterLastDot (base : List Char) : Option (List Char) :=
  if base.contains '.' then some (base.reverse.takeWhile (· != '.')).reverse else none

def extensionOf (path : String) : Option String :=
  match afterLastDot (baseName (trim path)) with
  | none => none
  | some ext =>
    if ext.isEmpty || (String.ofList ext).utf8ByteSize > 16 || !ext.all Char.isAlphanum then none
    else some (String.ofList ('.' :: ext.map Char.toLower))

/-- The formats by extension; the engine keeps the seed. -/
structure FormatRegistry where
  formats : List (String × StreamClass)

namespace FormatRegistry

def withSpecSeed : FormatRegistry where
  formats :=
    [(".ytd", .texture), (".yft", .geometry), (".ydd", .geometry), (".ydr", .geometry),
      (".ybn", .collision), (".ymap", .map), (".ytyp", .map), (".ycd", .animation),
      (".awc", .audio), (".rel", .data), (".ymt", .metadata)]

def recognize (r : FormatRegistry) (path : String) : Option StreamClass :=
  (extensionOf path).bind (fun ext ↦ r.formats.lookup ext)

end FormatRegistry

inductive DataFileCategory
  | vehicle
  | handling
  | appearance
  | variation
  | layout
  | ped
  | clothing
  | mapInterior
  | audio
  | weapon
  | clip
  | population
  | vfx
  | textureParenting
  | other
deriving DecidableEq

/-- The path without a Windows drive; any other colon is refused. -/
def withoutDrive (path : List Char) : Option (List Char) :=
  match path with
  | drive :: ':' :: sep :: rest =>
    if drive.isAlpha && (sep == '\\' || sep == '/') then some rest else none
  | _ => if path.contains ':' then none else some path

def normalizeName (raw : String) : Option String :=
  let t := trim raw
  if t.isEmpty || t.toList.contains '\x00' then none
  else
    match withoutDrive t.toList with
    | none => none
    | some path =>
      let base := String.ofList (baseName (String.ofList path))
      if base.isEmpty || base == "." || base == ".." || base.utf8ByteSize > 128 then none
      else if !base.toList.contains '.' then none
      else some (String.ofList (base.toList.map Char.toLower))

structure DataFileRegistry where
  entries : List (String × DataFileCategory)

namespace DataFileRegistry

def withSpecSeed : DataFileRegistry where
  entries :=
    [("vehicles.meta", .vehicle), ("handling.meta", .handling), ("carcols.meta", .appearance),
      ("carvariations.meta", .variation), ("vehiclelayouts.meta", .layout)]

def lookup (r : DataFileRegistry) (nameOrPath : String) : Option DataFileCategory :=
  (normalizeName nameOrPath).bind (fun key ↦ r.entries.lookup key)

end DataFileRegistry

end Aldivine.Streaming.Registries

namespace Aldivine.Streaming.Mounts

open Registries Foundation.Fallible Foundation.Table

inductive MountState
  | queued
  | verifying
  | verified
  | dependenciesReady
  | mountPending
  | mounted
  | registered
  | failedRetryable (reason : String)
  | failedFatal (reason : String)
  | cancelled
deriving DecidableEq

def MountState.terminal : MountState → Bool
  | .registered | .failedRetryable _ | .failedFatal _ | .cancelled => true
  | _ => false

inductive MountError
  | unknownAsset (assetId : String)
  | unknownFormat (fileName : String)
  | badTransition (current : MountState) (op : String)
  | terminal
deriving DecidableEq

structure MountRecord where
  assetId : String
  fileName : String
  streamClass : StreamClass
  expectedHash : Option String
  dependencies : List String
  state : MountState
  mountPoint : Option String
deriving DecidableEq

structure Mounter where
  records : AList (fun _ : String ↦ MountRecord)

/-- The states that `check` is asked for carry no reason, so to compare them is to compare their
discriminants. -/
def check (state want : MountState) (op : String) : Except MountError Unit :=
  if state.terminal then .error .terminal
  else if state ≠ want then .error (.badTransition state op)
  else .ok ()

namespace Mounter

def new : Mounter := ⟨∅⟩

def put (m : Mounter) (assetId : String) (rec : MountRecord) : Mounter :=
  ⟨m.records.insert assetId rec⟩

def queue (m : Mounter) (assetId fileName : String) (formats : FormatRegistry)
    (expectedHash : Option String) (dependencies : List String) : Except MountError Mounter :=
  match formats.recognize fileName with
  | none => .error (.unknownFormat fileName)
  | some streamClass =>
    match m.records.lookup assetId with
    | some rec => .error (.badTransition rec.state "re-queue")
    | none => .ok (m.put assetId
        ⟨assetId, fileName, streamClass, expectedHash, dependencies, .queued, none⟩)

def record (m : Mounter) (assetId : String) : Except MountError MountRecord :=
  match m.records.lookup assetId with
  | none => .error (.unknownAsset assetId)
  | some rec => .ok rec

def transition (m : Mounter) (assetId : String) (want : MountState) (op : String)
    (next : MountRecord → MountRecord) : Except MountError Mounter := do
  let rec ← m.record assetId
  check rec.state want op
  return m.put assetId (next rec)

def beginVerify (m : Mounter) (assetId : String) : Except MountError Mounter :=
  m.transition assetId .queued "begin_verify" (fun rec ↦ { rec with state := .verifying })

def finishVerify (m : Mounter) (assetId : String) (hashOk : Bool) (detail : String) :
    Except MountError Mounter :=
  m.transition assetId .verifying "finish_verify" (fun rec ↦
    { rec with
        state := if hashOk then .verified else .failedRetryable ("hash mismatch: " ++ detail) })

def checkDependencies (m : Mounter) (assetId : String) (resolve : String → Bool) :
    Except MountError Mounter :=
  m.transition assetId .verified "check_dependencies" (fun rec ↦
    let missing := rec.dependencies.filter (fun d ↦ !resolve d)
    { rec with
        state := if missing.isEmpty then .dependenciesReady
          else .failedRetryable ("missing datafiles: " ++ String.intercalate ", " missing) })

def beginMount (m : Mounter) (assetId mountPoint : String) : Except MountError Mounter :=
  m.transition assetId .dependenciesReady "begin_mount" (fun rec ↦
    { rec with mountPoint := some mountPoint, state := .mountPending })

def completeMount (m : Mounter) (assetId : String) : Except MountError Mounter :=
  m.transition assetId .mountPending "complete_mount" (fun rec ↦ { rec with state := .mounted })

def register (m : Mounter) (assetId : String) : Except MountError Mounter :=
  m.transition assetId .mounted "register" (fun rec ↦ { rec with state := .registered })

def stop (m : Mounter) (assetId : String) (next : MountState) : Except MountError Mounter := do
  let rec ← m.record assetId
  refuse (rec.state.terminal = true) MountError.terminal
  return m.put assetId { rec with state := next }

def cancel (m : Mounter) (assetId : String) : Except MountError Mounter :=
  m.stop assetId .cancelled

def fail (m : Mounter) (assetId reason : String) (retryable : Bool) : Except MountError Mounter :=
  m.stop assetId (if retryable then .failedRetryable reason else .failedFatal reason)

def stateOf (m : Mounter) (assetId : String) : Option MountState :=
  (m.records.lookup assetId).map (·.state)

end Mounter

variable {m m' : Mounter} {assetId : String}

theorem check_ok {state want : MountState} {op : String} (h : check state want op = .ok ()) :
    state = want := by
  unfold check at h
  split at h
  · cases h
  · split at h
    · cases h
    · exact not_not.mp ‹_›

theorem record_ok {rec : MountRecord} (h : m.record assetId = .ok rec) :
    m.records.lookup assetId = some rec := by
  unfold Mounter.record at h
  cases hlookup : m.records.lookup assetId with
  | none => simp [hlookup] at h
  | some found =>
    simp only [hlookup] at h
    cases h
    rfl

theorem transition_ok {want : MountState} {op : String} {next : MountRecord → MountRecord}
    (h : m.transition assetId want op next = .ok m') :
    ∃ rec, m.records.lookup assetId = some rec ∧ rec.state = want ∧
      m' = m.put assetId (next rec) := by
  unfold Mounter.transition at h
  obtain ⟨rec, hrec, h⟩ := bind_eq_ok.mp h
  obtain ⟨_, hcheck, h⟩ := bind_eq_ok.mp h
  cases h
  exact ⟨rec, record_ok hrec, check_ok hcheck, rfl⟩

theorem stop_ok {next : MountState} (h : m.stop assetId next = .ok m') :
    ∃ rec, m.records.lookup assetId = some rec ∧ rec.state.terminal = false ∧
      m' = m.put assetId { rec with state := next } := by
  unfold Mounter.stop at h
  obtain ⟨rec, hrec, h⟩ := bind_eq_ok.mp h
  obtain ⟨_, hgoing, h⟩ := bind_eq_ok.mp h
  cases h
  exact ⟨rec, record_ok hrec, by simpa using refuse_eq_ok.mp hgoing, rfl⟩

theorem queue_ok {fileName : String} {formats : FormatRegistry} {expectedHash : Option String}
    {dependencies : List String}
    (h : m.queue assetId fileName formats expectedHash dependencies = .ok m') :
    m.records.lookup assetId = none ∧
      ∃ streamClass, m' = m.put assetId
        ⟨assetId, fileName, streamClass, expectedHash, dependencies, .queued, none⟩ := by
  unfold Mounter.queue at h
  cases hclass : formats.recognize fileName with
  | none => simp [hclass] at h
  | some streamClass =>
    cases hlookup : m.records.lookup assetId with
    | some rec => simp [hclass, hlookup] at h
    | none =>
      simp only [hclass, hlookup] at h
      cases h
      exact ⟨rfl, streamClass, rfl⟩

theorem queue_isOk_iff {fileName : String} {formats : FormatRegistry}
    {expectedHash : Option String} {dependencies : List String} :
    (∃ m', m.queue assetId fileName formats expectedHash dependencies = .ok m') ↔
      (formats.recognize fileName).isSome ∧ m.records.lookup assetId = none := by
  unfold Mounter.queue
  cases formats.recognize fileName with
  | none => simp
  | some streamClass =>
    cases m.records.lookup assetId with
    | none => simp
    | some rec => simp

theorem lookup_put (id : String) (rec : MountRecord) :
    (m.put assetId rec).records.lookup id =
      if id = assetId then some rec else m.records.lookup id :=
  lookup_insert_ite id rec

end Aldivine.Streaming.Mounts
