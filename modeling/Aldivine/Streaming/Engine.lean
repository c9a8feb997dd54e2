import Aldivine.Downloads.Model
import Aldivine.Foundation.Machine
import Aldivine.Residency.Model
import Aldivine.Streaming.Caches
import Aldivine.Streaming.Mounts

namespace Aldivine.Streaming.Engine

open Downloads.Lanes Downloads.Model Foundation.Machine Residency.Model Streaming.Caches Mounts
  Registries

inductive StreamError
  | unknownAsset (assetId : String)
  | duplicate (assetId : String)
  | download (e : DownloadError)
  | mount (e : MountError)
  | residency (e : ResidencyError)
  | cache (e : CacheError)
deriving DecidableEq

inductive AssetState
  | downloading (received total : BitVec 64)
  | stalled (received total : BitVec 64)
  | caching
  | mounting (stage : String)
  | residency (stage : String)
  | ready
  | failed (reason : String)
deriving DecidableEq

structure Watchdog where
  stallAfterTicks : BitVec 64

def Watchdog.new (stallAfterTicks : BitVec 64) : Watchdog :=
  ⟨if stallAfterTicks = 0 then 1 else stallAfterTicks⟩

/-- `saturating_sub` is the subtraction of natural numbers. -/
def Watchdog.isStalled (w : Watchdog) (lastProgressTick nowTick : BitVec 64) : Bool :=
  nowTick.toNat - lastProgressTick.toNat > w.stallAfterTicks.toNat

structure AssetMeta where
  expectedHash : String
  lane : Lane
  download : Download
  cached : Bool

structure StreamingEngine where
  formats : FormatRegistry
  datafiles : DataFileRegistry
  lanes : LaneScheduler
  downloadsPlanned : AList (fun _ : String ↦ AssetMeta)
  mounter : Mounter
  residency : ResidencyTracker
  watchdog : Watchdog
  jobSeq : BitVec 64

abbrev Answer := Outcome StreamError (Option ResidencyState)

namespace StreamingEngine

def new (watchdog : Watchdog) : StreamingEngine where
  formats := .withSpecSeed
  datafiles := .withSpecSeed
  lanes := .new
  downloadsPlanned := ∅
  mounter := .new
  residency := .new
  watchdog := watchdog
  jobSeq := 0

def putAsset (s : StreamingEngine) (assetId : String) (info : AssetMeta) : StreamingEngine :=
  { s with downloadsPlanned := s.downloadsPlanned.insert assetId info }

/-- The mount record is queued when counting the job panics. -/
def addAsset (mode : Overflow) (s : StreamingEngine) (assetId fileName : String)
    (fileLen chunkLen : BitVec 64) (expectedHash : String) (dependencies : List String)
    (lane : Lane) (nowTick : BitVec 64) : StreamingEngine × Answer :=
  if (s.downloadsPlanned.lookup assetId).isSome then (s, .err (.duplicate assetId))
  else
    match ChunkPlan.new fileLen chunkLen with
    | .error e => (s, .err (.download e))
    | .ok plan =>
      match s.mounter.queue assetId fileName s.formats (some expectedHash) dependencies with
      | .error e => (s, .err (.mount e))
      | .ok mounter =>
        let s := { s with mounter := mounter }
        match mode.add s.jobSeq 1 with
        | none => (s, .panic)
        | some job =>
          let s := { s with jobSeq := job, lanes := s.lanes.enqueue lane job }
          (s.putAsset assetId ⟨expectedHash, lane, Download.new plan nowTick, false⟩, .ok none)

def receiveChunk (s : StreamingEngine) (assetId : String) (offset : BitVec 64) (data : List UInt8)
    (nowTick : BitVec 64) : StreamingEngine × Answer :=
  match s.downloadsPlanned.lookup assetId with
  | none => (s, .err (.unknownAsset assetId))
  | some info =>
    let (download, result) := info.download.receive offset data nowTick
    let s := s.putAsset assetId { info with download := download }
    match result with
    | .error e => (s, .err (.download e))
    | .ok () => (s, .ok none)

def finalizeDownload (sha256 : List UInt8 → String) (s : StreamingEngine) (assetId : String)
    (cache : ContentCache) (disk : Disk) : StreamingEngine × ContentCache × Answer :=
  match s.downloadsPlanned.lookup assetId with
  | none => (s, cache, .err (.unknownAsset assetId))
  | some info =>
    match info.download.assembled with
    | none => (s, cache, .err (.download (.outOfBounds 0 0 info.download.plan.fileLen)))
    | some bytes =>
      match cache.store sha256 disk bytes info.expectedHash with
      | (cache, .error e) => (s, cache, .err (.cache e))
      | (cache, .ok ()) => (s.putAsset assetId { info with cached := true }, cache, .ok none)

/-- The mounter after a transition, or unchanged with its error. -/
def mounting (s : StreamingEngine) (result : Except MountError Mounter) :
    StreamingEngine × Answer :=
  match result with
  | .error e => (s, .err (.mount e))
  | .ok mounter => ({ s with mounter := mounter }, .ok none)

/-- An error of the cache is a negative verdict. -/
def mountVerify (sha256 : List UInt8 → String) (s : StreamingEngine) (assetId : String)
    (cache : ContentCache) (disk : Disk) : StreamingEngine × Answer :=
  match s.downloadsPlanned.lookup assetId with
  | none => (s, .err (.unknownAsset assetId))
  | some info =>
    match s.mounter.beginVerify assetId with
    | .error e => (s, .err (.mount e))
    | .ok mounter =>
      let s := { s with mounter := mounter }
      let ok := (cache.verify sha256 disk info.expectedHash).toOption.getD false
      s.mounting (s.mounter.finishVerify assetId ok ("cache verdict for " ++ info.expectedHash))

def mountCheckDeps (s : StreamingEngine) (assetId : String) : StreamingEngine × Answer :=
  s.mounting (s.mounter.checkDependencies assetId (fun d ↦ (s.datafiles.lookup d).isSome))

def mountBegin (s : StreamingEngine) (assetId mountPoint : String) : StreamingEngine × Answer :=
  s.mounting (s.mounter.beginMount assetId mountPoint)

def completeMount (s : StreamingEngine) (assetId : String) : StreamingEngine × Answer :=
  s.mounting (s.mounter.completeMount assetId)

def mountRegister (s : StreamingEngine) (assetId : String) : StreamingEngine × Answer :=
  s.mounting (s.mounter.register assetId)

variable {β : Type}

def resided (s : StreamingEngine) (result : ResidencyTracker × β × Outcome ResidencyError
    ResidencyState) : StreamingEngine × β × Answer :=
  let (residency, bridge, outcome) := result
  ({ s with residency := residency }, bridge,
    match outcome with
    | .ok state => .ok (some state)
    | .err e => .err (.residency e)
    | .panic => .panic)

def residencyRequest (mode : Overflow) (g : GameCommit β) (s : StreamingEngine) (bridge : β)
    (assetId : String) (nowTick timeoutTicks : BitVec 64) (maxRetries : BitVec 32) :
    StreamingEngine × β × Answer :=
  s.resided (s.residency.request mode g bridge assetId nowTick timeoutTicks maxRetries)

def residencyPoll (mode : Overflow) (g : GameCommit β) (s : StreamingEngine) (bridge : β)
    (assetId : String) (nowTick : BitVec 64) : StreamingEngine × β × Answer :=
  s.resided (s.residency.poll mode g bridge assetId nowTick)

end StreamingEngine

/-- `format!("{res:?}")` of the states that are under way. -/
def residencyStage : ResidencyState → String
  | .requested => "Requested"
  | .waiting deadlineTick =>
    "Waiting \x7b deadline_tick: " ++ toString deadlineTick.toNat ++ " \x7d"
  | .resident deadlineTick =>
    "Resident \x7b deadline_tick: " ++ toString deadlineTick.toNat ++ " \x7d"
  | _ => ""

/-- `format!("{mount:?}")` of the states that have not failed. -/
def mountStage : MountState → String
  | .queued => "Queued"
  | .verifying => "Verifying"
  | .verified => "Verified"
  | .dependenciesReady => "DependenciesReady"
  | .mountPending => "MountPending"
  | .mounted => "Mounted"
  | .registered => "Registered"
  | _ => ""

def mountFailure : MountState → Option String
  | .failedRetryable reason => some reason
  | .failedFatal reason => some reason
  | .cancelled => some "mount cancelled"
  | _ => none

namespace StreamingEngine

def assetState (s : StreamingEngine) (assetId : String) (nowTick : BitVec 64) :
    Except StreamError AssetState :=
  match s.downloadsPlanned.lookup assetId with
  | none => .error (.unknownAsset assetId)
  | some info =>
    match s.residency.stateOf assetId with
    | some .ready => .ok .ready
    | some (.failed reason) => .ok (.failed reason)
    | some .expired => .ok (.failed "residency expired")
    | some .cancelled => .ok (.failed "residency cancelled")
    | some state => .ok (.residency (residencyStage state))
    | none =>
      match (s.mounter.stateOf assetId).bind mountFailure with
      | some reason => .ok (.failed reason)
      | none =>
        if !info.download.isComplete then
          let total := info.download.plan.fileLen
          let received := info.download.receivedBytes
          if s.watchdog.isStalled info.download.lastProgressTick nowTick then
            .ok (.stalled received total)
          else .ok (.downloading received total)
        else if !info.cached then .ok .caching
        else
          match s.mounter.stateOf assetId with
          | some state => .ok (.mounting (mountStage state))
          | none => .ok .caching

def joinReady (s : StreamingEngine) (required : List String) (nowTick : BitVec 64) : Bool :=
  required.all (fun id ↦
    match s.assetState id nowTick with
    | .ok .ready => true
    | _ => false)

end StreamingEngine

structure World (β : Type) where
  engine : StreamingEngine
  bridge : β

/-- One call on the engine. The cache and the file system are whatever the caller passes in. -/
inductive Op
  | addAsset (assetId fileName : String) (fileLen chunkLen : BitVec 64) (expectedHash : String)
      (dependencies : List String) (lane : Lane) (nowTick : BitVec 64)
  | receiveChunk (assetId : String) (offset : BitVec 64) (data : List UInt8) (nowTick : BitVec 64)
  | finalizeDownload (assetId : String) (cache : ContentCache) (disk : Disk)
  | mountVerify (assetId : String) (cache : ContentCache) (disk : Disk)
  | mountCheckDeps (assetId : String)
  | mountBegin (assetId mountPoint : String)
  | completeMount (assetId : String)
  | mountRegister (assetId : String)
  | residencyRequest (assetId : String) (nowTick timeoutTicks : BitVec 64) (maxRetries : BitVec 32)
  | residencyPoll (assetId : String) (nowTick : BitVec 64)

variable {β : Type}

def step (mode : Overflow) (sha256 : List UInt8 → String) (g : GameCommit β) (w : World β) :
    Op → World β × Answer
  | .addAsset assetId fileName fileLen chunkLen expectedHash dependencies lane nowTick =>
    let (engine, answer) := w.engine.addAsset mode assetId fileName fileLen chunkLen expectedHash
      dependencies lane nowTick
    (⟨engine, w.bridge⟩, answer)
  | .receiveChunk assetId offset data nowTick =>
    let (engine, answer) := w.engine.receiveChunk assetId offset data nowTick
    (⟨engine, w.bridge⟩, answer)
  | .finalizeDownload assetId cache disk =>
    let (engine, _, answer) := w.engine.finalizeDownload sha256 assetId cache disk
    (⟨engine, w.bridge⟩, answer)
  | .mountVerify assetId cache disk =>
    let (engine, answer) := w.engine.mountVerify sha256 assetId cache disk
    (⟨engine, w.bridge⟩, answer)
  | .mountCheckDeps assetId =>
    let (engine, answer) := w.engine.mountCheckDeps assetId
    (⟨engine, w.bridge⟩, answer)
  | .mountBegin assetId mountPoint =>
    let (engine, answer) := w.engine.mountBegin assetId mountPoint
    (⟨engine, w.bridge⟩, answer)
  | .completeMount assetId =>
    let (engine, answer) := w.engine.completeMount assetId
    (⟨engine, w.bridge⟩, answer)
  | .mountRegister assetId =>
    let (engine, answer) := w.engine.mountRegister assetId
    (⟨engine, w.bridge⟩, answer)
  | .residencyRequest assetId nowTick timeoutTicks maxRetries =>
    let (engine, bridge, answer) := w.engine.residencyRequest mode g w.bridge assetId nowTick
      timeoutTicks maxRetries
    (⟨engine, bridge⟩, answer)
  | .residencyPoll assetId nowTick =>
    let (engine, bridge, answer) := w.engine.residencyPoll mode g w.bridge assetId nowTick
    (⟨engine, bridge⟩, answer)

end Aldivine.Streaming.Engine
