import Aldivine.Streaming.Engine

namespace Aldivine.Streaming.Fates

open Downloads.Lanes hiding step
open Downloads.Model hiding step
open Residency.Model hiding step World Op Answer
open Foundation.Machine Foundation.Table Streaming.Caches Mounts Registries Engine

variable {β : Type} {mode : Overflow} {sha256 : List UInt8 → String} {g : GameCommit β}
  {w : World β} {op : Op} {assetId : String}

/-- The call commits the bytes of the asset to the cache, under `hash`. -/
def Commits (sha256 : List UInt8 → String) (assetId hash : String)
    (x : World β × Op) : Prop :=
  ∃ cache disk info bytes, x.2 = .finalizeDownload assetId cache disk ∧
    x.1.engine.downloadsPlanned.lookup assetId = some info ∧ info.expectedHash = hash ∧
    info.download.assembled = some bytes ∧ (cache.store sha256 disk bytes hash).2 = .ok () ∧
    Holds sha256 disk (cache.store sha256 disk bytes hash).1 hash

def Adds (mode : Overflow) (w : World β) (assetId : String) : Op → Prop
  | .addAsset id fileName fileLen chunkLen _ _ _ _ =>
    id = assetId ∧ w.engine.downloadsPlanned.lookup id = none ∧ fileLen ≠ 0 ∧ chunkLen ≠ 0 ∧
      (w.engine.formats.recognize fileName).isSome ∧ w.engine.mounter.records.lookup id = none ∧
      (mode.add w.engine.jobSeq 1).isSome
  | _ => False

def Confirms (g : GameCommit β) (w : World β) (assetId : String) : Op → Prop
  | .residencyPoll id _ =>
    id = assetId ∧ (∃ deadlineTick, w.engine.residency.stateOf id = some (.resident deadlineTick)) ∧
      (g.confirmResident w.bridge id).1 = true
  | _ => False

inductive PlanFate (mode : Overflow) (sha256 : List UInt8 → String) (w : World β)
    (op : Op) (assetId : String) : Option AssetMeta → Prop
  | kept (hadds : ¬ Adds mode w assetId op)
      (hcommits : ∀ hash, ¬ Commits sha256 assetId hash (w, op)) :
      PlanFate mode sha256 w op assetId (w.engine.downloadsPlanned.lookup assetId)
  | added {info : AssetMeta} (hadds : Adds mode w assetId op) (hcached : info.cached = false)
      (hcommits : ∀ hash, ¬ Commits sha256 assetId hash (w, op)) :
      PlanFate mode sha256 w op assetId (some info)
  | received {info : AssetMeta} {download : Download}
      (hinfo : w.engine.downloadsPlanned.lookup assetId = some info)
      (hcomplete : info.download.isComplete = true → download = info.download)
      (hcommits : ∀ hash, ¬ Commits sha256 assetId hash (w, op)) :
      PlanFate mode sha256 w op assetId (some { info with download := download })
  | cached {info : AssetMeta} (hinfo : w.engine.downloadsPlanned.lookup assetId = some info)
      (hcommits : Commits sha256 assetId info.expectedHash (w, op)) :
      PlanFate mode sha256 w op assetId (some { info with cached := true })

def pastDependencies : MountState → Bool
  | .dependenciesReady | .mountPending | .mounted | .registered => true
  | _ => false

def Resolves (s : StreamingEngine) (rec : MountRecord) : Prop :=
  ∀ d ∈ rec.dependencies, (s.datafiles.lookup d).isSome

inductive MountFate (w : World β) (assetId : String) : Option MountRecord → Prop
  | kept : MountFate w assetId (w.engine.mounter.records.lookup assetId)
  | queued {rec : MountRecord} (hnew : w.engine.mounter.records.lookup assetId = none)
      (hstate : rec.state = .queued) : MountFate w assetId (some rec)
  | moved {rec new : MountRecord} (hrec : w.engine.mounter.records.lookup assetId = some rec)
      (hlive : rec.state.terminal = false) (hdeps : new.dependencies = rec.dependencies)
      (hpast : pastDependencies new.state → pastDependencies rec.state ∨ Resolves w.engine rec) :
      MountFate w assetId (some new)

inductive ResidencyFate (g : GameCommit β) (w : World β) (op : Op)
    (assetId : String) : Option ResidencyState → Prop
  | kept (hquiet : ¬ Confirms g w assetId op) :
      ResidencyFate g w op assetId (w.engine.residency.stateOf assetId)
  | moved {state : ResidencyState} (hquiet : ¬ Confirms g w assetId op)
      (hold : w.engine.residency.stateOf assetId ≠ some .ready) (hnew : state ≠ .ready) :
      ResidencyFate g w op assetId (some state)
  | confirmed (hconfirms : Confirms g w assetId op) : ResidencyFate g w op assetId (some .ready)

section Plans

theorem lookup_putAsset (s : StreamingEngine) (id : String) (info : AssetMeta) :
    (s.putAsset assetId info).downloadsPlanned.lookup id =
      if id = assetId then some info else s.downloadsPlanned.lookup id :=
  lookup_insert_ite id info

theorem planFate_of_eq {planned : Option AssetMeta}
    (heq : planned = w.engine.downloadsPlanned.lookup assetId) (hadds : ¬ Adds mode w assetId op)
    (hcommits : ∀ hash, ¬ Commits sha256 assetId hash (w, op)) :
    PlanFate mode sha256 w op assetId planned := by
  subst heq
  exact .kept hadds hcommits

theorem not_commits (h : ∀ cache disk, op ≠ .finalizeDownload assetId cache disk) (hash : String) :
    ¬ Commits sha256 assetId hash (w, op) := by
  intro hcommits
  obtain ⟨cache, disk, _, _, hop, _⟩ := hcommits
  exact h cache disk hop

inductive Added (mode : Overflow) (s : StreamingEngine) (assetId fileName : String)
    (fileLen chunkLen : BitVec 64) (expectedHash : String) (dependencies : List String) :
    StreamingEngine → Prop
  | refused (hrefused : ¬ (s.downloadsPlanned.lookup assetId = none ∧
      (∃ plan, ChunkPlan.new fileLen chunkLen = .ok plan) ∧ ∃ mounter,
        s.mounter.queue assetId fileName s.formats (some expectedHash) dependencies =
          .ok mounter)) :
      Added mode s assetId fileName fileLen chunkLen expectedHash dependencies s
  | panicked {mounter : Mounter}
      (hqueue : s.mounter.queue assetId fileName s.formats (some expectedHash) dependencies =
        .ok mounter)
      (hjob : mode.add s.jobSeq 1 = none) :
      Added mode s assetId fileName fileLen chunkLen expectedHash dependencies
        { s with mounter := mounter }
  | planned {plan : ChunkPlan} {mounter : Mounter} {job : BitVec 64} {lanes : LaneScheduler}
      {info : AssetMeta} (hnew : s.downloadsPlanned.lookup assetId = none)
      (hplan : ChunkPlan.new fileLen chunkLen = .ok plan)
      (hqueue : s.mounter.queue assetId fileName s.formats (some expectedHash) dependencies =
        .ok mounter)
      (hjob : mode.add s.jobSeq 1 = some job) (hcached : info.cached = false) :
      Added mode s assetId fileName fileLen chunkLen expectedHash dependencies
        (StreamingEngine.putAsset { s with mounter := mounter, jobSeq := job, lanes := lanes }
          assetId info)

variable {s : StreamingEngine} {fileName expectedHash : String}
  {fileLen chunkLen nowTick : BitVec 64} {dependencies : List String} {lane : Lane}

theorem addAsset_added :
    Added mode s assetId fileName fileLen chunkLen expectedHash dependencies
      (s.addAsset mode assetId fileName fileLen chunkLen expectedHash dependencies lane
        nowTick).1 := by
  unfold StreamingEngine.addAsset
  split
  · rename_i hplanned
    refine .refused (fun h ↦ ?_)
    rw [h.1] at hplanned
    cases hplanned
  · rename_i hnew
    rw [Bool.not_eq_true, Option.isSome_eq_false_iff, Option.isNone_iff_eq_none] at hnew
    cases hplan : ChunkPlan.new fileLen chunkLen with
    | error e =>
      refine .refused (fun h ↦ ?_)
      obtain ⟨plan, hplan'⟩ := h.2.1
      cases hplan.symm.trans hplan'
    | ok plan =>
      cases hqueue : s.mounter.queue assetId fileName s.formats (some expectedHash)
          dependencies with
      | error e =>
        refine .refused (fun h ↦ ?_)
        obtain ⟨mounter, hqueue'⟩ := h.2.2
        cases hqueue.symm.trans hqueue'
      | ok mounter =>
        dsimp only
        cases hjob : mode.add s.jobSeq 1 with
        | none => exact .panicked hqueue hjob
        | some job => exact .planned hnew hplan hqueue hjob rfl

theorem adds_iff :
    Adds mode w assetId (.addAsset assetId fileName fileLen chunkLen expectedHash dependencies lane
        nowTick) ↔
      w.engine.downloadsPlanned.lookup assetId = none ∧
        (∃ plan, ChunkPlan.new fileLen chunkLen = .ok plan) ∧
        (∃ mounter, w.engine.mounter.queue assetId fileName w.engine.formats (some expectedHash)
          dependencies = .ok mounter) ∧ (mode.add w.engine.jobSeq 1).isSome := by
  have hplan : (∃ plan, ChunkPlan.new fileLen chunkLen = .ok plan) ↔
      fileLen ≠ 0 ∧ chunkLen ≠ 0 := by
    unfold ChunkPlan.new
    split
    · rename_i hzero
      exact iff_of_false (fun h ↦ nomatch h) (fun h ↦ hzero.elim h.1 h.2)
    · rename_i hlens
      exact iff_of_true ⟨_, rfl⟩ (not_or.mp hlens)
  rw [hplan, queue_isOk_iff]
  simp only [Adds, true_and, and_assoc]

theorem Added.planFate {id : String} {s' : StreamingEngine}
    (h : Added mode w.engine id fileName fileLen chunkLen expectedHash dependencies s') :
    PlanFate mode sha256 w (.addAsset id fileName fileLen chunkLen expectedHash dependencies lane
      nowTick) assetId (s'.downloadsPlanned.lookup assetId) := by
  have hcommits := @not_commits β sha256 w (.addAsset id fileName fileLen chunkLen expectedHash
    dependencies lane nowTick) assetId (fun _ _ hop ↦ nomatch hop)
  cases h with
  | refused hrefused =>
    refine .kept (fun hadds ↦ ?_) hcommits
    obtain rfl : id = assetId := hadds.1
    obtain ⟨hnew, hplan, hqueue, -⟩ := adds_iff.mp hadds
    exact hrefused ⟨hnew, hplan, hqueue⟩
  | panicked hqueue hjob =>
    refine .kept (fun hadds ↦ ?_) hcommits
    obtain rfl : id = assetId := hadds.1
    obtain ⟨-, -, -, hsome⟩ := adds_iff.mp hadds
    rw [hjob] at hsome
    cases hsome
  | planned hnew hplan hqueue hjob hcached =>
    rw [lookup_putAsset]
    by_cases hid : assetId = id
    · subst hid
      rw [if_pos rfl]
      refine .added (adds_iff.mpr ⟨hnew, ⟨_, hplan⟩, ⟨_, hqueue⟩, ?_⟩) hcached hcommits
      rw [hjob]
      rfl
    · rw [if_neg hid]
      exact .kept (fun hadds ↦ hid hadds.1.symm) hcommits

theorem receive_complete {d : Download} {offset : BitVec 64} {data : List UInt8}
    (h : d.isComplete = true) : (d.receive offset data nowTick).1 = d := by
  rw [Download.receive, if_pos h]

theorem receiveChunk_planned {id : String} {offset : BitVec 64} {data : List UInt8}
    {info : AssetMeta} (hinfo : s.downloadsPlanned.lookup id = some info) :
    (s.receiveChunk id offset data nowTick).1 =
      s.putAsset id { info with download := (info.download.receive offset data nowTick).1 } := by
  unfold StreamingEngine.receiveChunk
  rw [hinfo]
  dsimp only
  split <;> rfl

theorem planFate_receiveChunk {id : String} {offset : BitVec 64} {data : List UInt8} :
    PlanFate mode sha256 w (.receiveChunk id offset data nowTick) assetId
      ((w.engine.receiveChunk id offset data nowTick).1.downloadsPlanned.lookup assetId) := by
  have hcommits := @not_commits β sha256 w (.receiveChunk id offset data nowTick) assetId
    (fun _ _ hop ↦ nomatch hop)
  cases hinfo : w.engine.downloadsPlanned.lookup id with
  | none =>
    rw [StreamingEngine.receiveChunk, hinfo]
    exact .kept (fun hadds ↦ hadds) hcommits
  | some info =>
    rw [receiveChunk_planned hinfo, lookup_putAsset]
    by_cases hid : assetId = id
    · subst hid
      rw [if_pos rfl]
      exact .received hinfo receive_complete hcommits
    · rw [if_neg hid]
      exact .kept (fun hadds ↦ hadds) hcommits

theorem finalizeDownload_cases {id : String} {cache : ContentCache} {disk : Disk} :
    ((w.engine.finalizeDownload sha256 id cache disk).1 = w.engine ∧
        ∀ hash, ¬ Commits sha256 id hash (w, .finalizeDownload id cache disk)) ∨
      ∃ info, w.engine.downloadsPlanned.lookup id = some info ∧
        Commits sha256 id info.expectedHash (w, .finalizeDownload id cache disk) ∧
        (w.engine.finalizeDownload sha256 id cache disk).1 =
          w.engine.putAsset id { info with cached := true } := by
  unfold StreamingEngine.finalizeDownload
  cases hinfo : w.engine.downloadsPlanned.lookup id with
  | none =>
    refine .inl ⟨rfl, fun hash h ↦ ?_⟩
    obtain ⟨_, _, info, _, _, hinfo', _⟩ := h
    cases hinfo.symm.trans hinfo'
  | some info =>
    dsimp only
    cases hbytes : info.download.assembled with
    | none =>
      refine .inl ⟨rfl, fun hash h ↦ ?_⟩
      obtain ⟨_, _, info', _, _, hinfo', _, hbytes', _⟩ := h
      cases hinfo.symm.trans hinfo'
      cases hbytes.symm.trans hbytes'
    | some bytes =>
      dsimp only
      rcases hstore : cache.store sha256 disk bytes info.expectedHash with ⟨cache', e | ⟨⟩⟩
      · refine .inl ⟨rfl, fun hash h ↦ ?_⟩
        obtain ⟨_, _, info', bytes', hop, hinfo', rfl, hbytes', hok, _⟩ := h
        cases hop
        cases hinfo.symm.trans hinfo'
        cases hbytes.symm.trans hbytes'
        rw [hstore] at hok
        cases hok
      · have hok : (cache.store sha256 disk bytes info.expectedHash).2 = .ok () := by rw [hstore]
        exact .inr ⟨info, rfl, ⟨cache, disk, info, bytes, rfl, hinfo, rfl, hbytes, hok,
          store_ok hok⟩, rfl⟩

theorem planFate_finalizeDownload {id : String} {cache : ContentCache} {disk : Disk} :
    PlanFate mode sha256 w (.finalizeDownload id cache disk) assetId
      ((w.engine.finalizeDownload sha256 id cache disk).1.downloadsPlanned.lookup assetId) := by
  by_cases hid : assetId = id
  · subst hid
    rcases @finalizeDownload_cases β sha256 w assetId cache disk with
      ⟨hsame, hcommits⟩ | ⟨info, hinfo, hcommits, hput⟩
    · rw [hsame]
      exact .kept (fun hadds ↦ hadds) hcommits
    · rw [hput, lookup_putAsset, if_pos rfl]
      exact .cached hinfo hcommits
  · have hcommits := @not_commits β sha256 w (.finalizeDownload id cache disk) assetId
      (fun _ _ hop ↦ hid (by cases hop; rfl))
    refine planFate_of_eq ?_ (fun hadds ↦ hadds) hcommits
    rcases @finalizeDownload_cases β sha256 w id cache disk with ⟨hsame, -⟩ | ⟨info, -, -, hput⟩
    · rw [hsame]
    · rw [hput, lookup_putAsset, if_neg hid]

end Plans

section Mounting

variable {s : StreamingEngine} {result : Except MountError Mounter}

theorem mounting_frame : ∃ mounter, (s.mounting result).1 = { s with mounter := mounter } := by
  cases result with
  | error e => exact ⟨s.mounter, rfl⟩
  | ok mounter => exact ⟨mounter, rfl⟩

theorem mountVerify_frame {id : String} {cache : ContentCache} {disk : Disk} :
    ∃ mounter, (s.mountVerify sha256 id cache disk).1 = { s with mounter := mounter } := by
  unfold StreamingEngine.mountVerify
  cases s.downloadsPlanned.lookup id with
  | none => exact ⟨s.mounter, rfl⟩
  | some info =>
    dsimp only
    cases s.mounter.beginVerify id with
    | error e => exact ⟨s.mounter, rfl⟩
    | ok mounter => exact mounting_frame

theorem receiveChunk_frame {id : String} {offset nowTick : BitVec 64} {data : List UInt8} :
    ∃ planned, (s.receiveChunk id offset data nowTick).1 =
      { s with downloadsPlanned := planned } := by
  cases hinfo : s.downloadsPlanned.lookup id with
  | none =>
    rw [StreamingEngine.receiveChunk, hinfo]
    exact ⟨s.downloadsPlanned, rfl⟩
  | some info => exact ⟨_, receiveChunk_planned hinfo⟩

theorem finalizeDownload_frame {id : String} {cache : ContentCache} {disk : Disk} :
    ∃ planned, (w.engine.finalizeDownload sha256 id cache disk).1 =
      { w.engine with downloadsPlanned := planned } := by
  rcases @finalizeDownload_cases β sha256 w id cache disk with ⟨hsame, -⟩ | ⟨info, -, -, hput⟩
  · exact ⟨w.engine.downloadsPlanned, hsame⟩
  · exact ⟨_, hput⟩

theorem mountFate_put {id : String} {rec new : MountRecord}
    (hrec : w.engine.mounter.records.lookup id = some rec) (hlive : rec.state.terminal = false)
    (hdeps : new.dependencies = rec.dependencies)
    (hpast : pastDependencies new.state → pastDependencies rec.state ∨ Resolves w.engine rec) :
    MountFate w assetId ((w.engine.mounter.put id new).records.lookup assetId) := by
  rw [lookup_put]
  by_cases hid : assetId = id
  · subst hid
    rw [if_pos rfl]
    exact .moved hrec hlive hdeps hpast
  · rw [if_neg hid]
    exact .kept

theorem mountFate_transition {id opName : String} {want : MountState}
    {next : MountRecord → MountRecord} (hwant : want.terminal = false)
    (hdeps : ∀ rec, (next rec).dependencies = rec.dependencies)
    (hpast : ∀ rec, rec.state = want → pastDependencies (next rec).state →
      pastDependencies rec.state ∨ Resolves w.engine rec) :
    MountFate w assetId ((w.engine.mounting (w.engine.mounter.transition id want opName
      next)).1.mounter.records.lookup assetId) := by
  cases hresult : w.engine.mounter.transition id want opName next with
  | error e => exact .kept
  | ok mounter =>
    obtain ⟨rec, hrec, hstate, rfl⟩ := transition_ok hresult
    exact mountFate_put hrec (hstate ▸ hwant) (hdeps rec) (hpast rec hstate)

theorem Added.mountFate {id fileName expectedHash : String} {fileLen chunkLen : BitVec 64}
    {dependencies : List String} {s' : StreamingEngine}
    (h : Added mode w.engine id fileName fileLen chunkLen expectedHash dependencies s') :
    MountFate w assetId (s'.mounter.records.lookup assetId) := by
  have hqueued {mounter : Mounter}
      (hqueue : w.engine.mounter.queue id fileName w.engine.formats (some expectedHash)
        dependencies = .ok mounter) : MountFate w assetId (mounter.records.lookup assetId) := by
    obtain ⟨hnew, streamClass, rfl⟩ := queue_ok hqueue
    rw [lookup_put]
    by_cases hid : assetId = id
    · subst hid
      rw [if_pos rfl]
      exact .queued hnew rfl
    · rw [if_neg hid]
      exact .kept
  cases h with
  | refused hrefused => exact .kept
  | panicked hqueue hjob => exact hqueued hqueue
  | planned hnew hplan hqueue hjob hcached => exact hqueued hqueue

theorem mountFate_mountVerify {id : String} {cache : ContentCache} {disk : Disk} :
    MountFate w assetId
      ((w.engine.mountVerify sha256 id cache disk).1.mounter.records.lookup assetId) := by
  unfold StreamingEngine.mountVerify
  cases w.engine.downloadsPlanned.lookup id with
  | none => exact .kept
  | some info =>
    dsimp only
    cases hbegin : w.engine.mounter.beginVerify id with
    | error e => exact .kept
    | ok mounter =>
      obtain ⟨rec, hrec, hstate, rfl⟩ := transition_ok hbegin
      have hlive : rec.state.terminal = false := by rw [hstate]; rfl
      dsimp only
      generalize (cache.verify sha256 disk info.expectedHash).toOption.getD false = hashOk
      cases hfinish : (w.engine.mounter.put id { rec with state := .verifying }).finishVerify id
          hashOk ("cache verdict for " ++ info.expectedHash) with
      | error e => exact mountFate_put hrec hlive rfl nofun
      | ok mounter =>
        obtain ⟨verifying, hverifying, -, rfl⟩ := transition_ok hfinish
        rw [lookup_put, if_pos rfl] at hverifying
        cases hverifying
        simp only [StreamingEngine.mounting]
        rw [lookup_put, lookup_put]
        by_cases hid : assetId = id
        · subst hid
          rw [if_pos rfl]
          refine .moved hrec hlive rfl ?_
          cases hashOk <;> exact nofun
        · rw [if_neg hid, if_neg hid]
          exact .kept

theorem mountFate_mountCheckDeps {id : String} :
    MountFate w assetId
      ((w.engine.mountCheckDeps id).1.mounter.records.lookup assetId) := by
  refine mountFate_transition rfl (fun rec ↦ rfl) (fun rec hstate hpast ↦ .inr ?_)
  dsimp only at hpast
  split at hpast
  · rename_i hnone
    rw [List.isEmpty_iff, List.filter_eq_nil_iff] at hnone
    intro d hd
    simpa [Option.isSome_iff_ne_none] using hnone d hd
  · cases hpast

theorem mountFate (mode : Overflow) (sha256 : List UInt8 → String) (g : GameCommit β)
    (w : World β) (op : Op) (assetId : String) :
    MountFate w assetId
      ((step mode sha256 g w op).1.engine.mounter.records.lookup assetId) := by
  cases op with
  | addAsset id fileName fileLen chunkLen expectedHash dependencies lane nowTick =>
    have hadded : Added mode w.engine id fileName fileLen chunkLen expectedHash dependencies
        (w.engine.addAsset mode id fileName fileLen chunkLen expectedHash dependencies lane
          nowTick).1 := addAsset_added
    exact hadded.mountFate
  | receiveChunk id offset data nowTick =>
    obtain ⟨planned, hframe⟩ := @receiveChunk_frame w.engine id offset nowTick data
    simp only [step, hframe]
    exact .kept
  | finalizeDownload id cache disk =>
    obtain ⟨planned, hframe⟩ := @finalizeDownload_frame β sha256 w id cache disk
    simp only [step, hframe]
    exact .kept
  | mountVerify id cache disk => exact mountFate_mountVerify
  | mountCheckDeps id => exact mountFate_mountCheckDeps
  | mountBegin id mountPoint =>
    exact mountFate_transition rfl (fun rec ↦ rfl) (fun rec hstate _ ↦ .inl (by rw [hstate]; rfl))
  | completeMount id =>
    exact mountFate_transition rfl (fun rec ↦ rfl) (fun rec hstate _ ↦ .inl (by rw [hstate]; rfl))
  | mountRegister id =>
    exact mountFate_transition rfl (fun rec ↦ rfl) (fun rec hstate _ ↦ .inl (by rw [hstate]; rfl))
  | residencyRequest id nowTick timeoutTicks maxRetries => exact .kept
  | residencyPoll id nowTick => exact .kept

theorem planFate (mode : Overflow) (sha256 : List UInt8 → String) (g : GameCommit β)
    (w : World β) (op : Op) (assetId : String) :
    PlanFate mode sha256 w op assetId
      ((step mode sha256 g w op).1.engine.downloadsPlanned.lookup assetId) := by
  have hmounting (op : Op) (hadds : ¬ Adds mode w assetId op)
      (hop : ∀ cache disk, op ≠ .finalizeDownload assetId cache disk)
      (result : Except MountError Mounter) :
      PlanFate mode sha256 w op assetId
        ((w.engine.mounting result).1.downloadsPlanned.lookup assetId) := by
    obtain ⟨mounter, hframe⟩ := @mounting_frame w.engine result
    rw [hframe]
    exact .kept hadds (not_commits hop)
  cases op with
  | addAsset id fileName fileLen chunkLen expectedHash dependencies lane nowTick =>
    have hadded : Added mode w.engine id fileName fileLen chunkLen expectedHash dependencies
        (w.engine.addAsset mode id fileName fileLen chunkLen expectedHash dependencies lane
          nowTick).1 := addAsset_added
    exact hadded.planFate
  | receiveChunk id offset data nowTick => exact planFate_receiveChunk
  | finalizeDownload id cache disk => exact planFate_finalizeDownload
  | mountVerify id cache disk =>
    obtain ⟨mounter, hframe⟩ := @mountVerify_frame sha256 w.engine id cache disk
    simp only [step, hframe]
    exact .kept (fun hadds ↦ hadds) (not_commits (fun _ _ hop ↦ nomatch hop))
  | mountCheckDeps id =>
    exact hmounting (.mountCheckDeps id) (fun hadds ↦ hadds) (fun _ _ hop ↦ nomatch hop) _
  | mountBegin id mountPoint =>
    exact hmounting (.mountBegin id mountPoint) (fun hadds ↦ hadds) (fun _ _ hop ↦ nomatch hop) _
  | completeMount id =>
    exact hmounting (.completeMount id) (fun hadds ↦ hadds) (fun _ _ hop ↦ nomatch hop) _
  | mountRegister id =>
    exact hmounting (.mountRegister id) (fun hadds ↦ hadds) (fun _ _ hop ↦ nomatch hop) _
  | residencyRequest id nowTick timeoutTicks maxRetries =>
    exact .kept (fun hadds ↦ hadds) (not_commits (fun _ _ hop ↦ nomatch hop))
  | residencyPoll id nowTick =>
    exact .kept (fun hadds ↦ hadds) (not_commits (fun _ _ hop ↦ nomatch hop))

end Mounting

section Residing

variable {t : ResidencyTracker}

theorem stateOf_put (t : ResidencyTracker) (id : String) (req : Request) :
    (t.put assetId req).stateOf id = if id = assetId then some req.state else t.stateOf id := by
  unfold ResidencyTracker.stateOf ResidencyTracker.put
  rw [lookup_insert_ite]
  split <;> rfl

theorem settle_ne_ready {nowTick timeoutTicks : BitVec 64} {reason : String}
    {outcome : CommitOutcome} {state : ResidencyState}
    (h : settle mode nowTick timeoutTicks reason outcome = some state) : state ≠ .ready := by
  rintro rfl
  cases outcome with
  | accepted =>
    obtain ⟨_, _, hstate⟩ := Option.map_eq_some_iff.mp h
    cases hstate
  | retryable =>
    obtain ⟨_, _, hstate⟩ := Option.map_eq_some_iff.mp h
    cases hstate
  | fatal => cases h

theorem residencyFate_put {id : String} {new : Request}
    (hreq : ∀ req, w.engine.residency.requests.lookup id = some req → req.state ≠ .ready)
    (hnew : new.state ≠ .ready) (hquiet : ¬ Confirms g w assetId op) :
    ResidencyFate g w op assetId ((w.engine.residency.put id new).stateOf assetId) := by
  rw [stateOf_put]
  by_cases hid : assetId = id
  · subst hid
    rw [if_pos rfl]
    refine .moved hquiet (fun hready ↦ ?_) hnew
    obtain ⟨req, hlookup, hstate⟩ := Option.map_eq_some_iff.mp hready
    exact hreq req hlookup hstate
  · rw [if_neg hid]
    exact .kept hquiet

theorem residencyFate_residencyPoll {id : String} {nowTick : BitVec 64} :
    ResidencyFate g w (.residencyPoll id nowTick) assetId
      ((w.engine.residency.poll mode g w.bridge id nowTick).1.stateOf assetId) := by
  have hpolled := @poll_polled β mode g w.engine.residency w.bridge id nowTick
  generalize (w.engine.residency.poll mode g w.bridge id nowTick).1 = t at hpolled ⊢
  generalize (w.engine.residency.poll mode g w.bridge id nowTick).2.1 = bridge at hpolled
  have hquiet (h : ∀ req deadlineTick, w.engine.residency.requests.lookup id = some req →
      req.state ≠ .resident deadlineTick) : ¬ Confirms g w assetId (.residencyPoll id nowTick) := by
    intro hconfirms
    obtain ⟨-, ⟨deadlineTick, hresident⟩, -⟩ := hconfirms
    obtain ⟨req, hreq, hstate⟩ := Option.map_eq_some_iff.mp hresident
    exact h req deadlineTick hreq hstate
  have hput {req new : Request} (hreq : w.engine.residency.requests.lookup id = some req)
      (hstate : req.state ≠ .ready) (hnew : new.state ≠ .ready)
      (hstays : ¬ Confirms g w assetId (.residencyPoll id nowTick)) :
      ResidencyFate g w (.residencyPoll id nowTick) assetId
        ((w.engine.residency.put id new).stateOf assetId) := by
    refine residencyFate_put (fun req' hreq' ↦ ?_) hnew hstays
    cases hreq.symm.trans hreq'
    exact hstate
  have hwaits {req : Request} {deadlineTick : BitVec 64}
      (hreq : w.engine.residency.requests.lookup id = some req)
      (hstate : req.state = .waiting deadlineTick) :
      ¬ Confirms g w assetId (.residencyPoll id nowTick) := by
    refine hquiet (fun req' _ hreq' ↦ ?_)
    cases hreq.symm.trans hreq'
    rw [hstate]
    exact nofun
  cases hpolled with
  | idle hidle hresident => exact .kept (hquiet hresident)
  | parked hreq hstate =>
    refine hput hreq (hstate ▸ nofun) nofun (hquiet (fun req' _ hreq' ↦ ?_))
    cases hreq.symm.trans hreq'
    rw [hstate]
    exact nofun
  | expired hreq hstate hdue hused =>
    exact hput hreq (hstate ▸ nofun) nofun (hwaits hreq hstate)
  | retryPanicked hreq hstate hdue hused hsettle =>
    exact hput hreq (hstate ▸ nofun) nofun (hwaits hreq hstate)
  | retried hreq hstate hdue hused hsettle =>
    exact hput hreq (hstate ▸ nofun) (settle_ne_ready hsettle) (hwaits hreq hstate)
  | @asked req deadlineTick hreq hstate =>
    cases hconfirmed : (g.confirmResident w.bridge id).1 with
    | false =>
      refine hput hreq (hstate ▸ nofun) ?_ (fun hconfirms ↦ ?_)
      · unfold confirmedState
        simp only [Bool.false_eq_true, if_false]
        split <;> exact nofun
      · cases hconfirmed.symm.trans hconfirms.2.2
    | true =>
      rw [stateOf_put]
      by_cases hid : assetId = id
      · subst hid
        rw [if_pos rfl]
        refine .confirmed ⟨rfl, ⟨deadlineTick, ?_⟩, hconfirmed⟩
        rw [ResidencyTracker.stateOf, hreq, Option.map_some, hstate]
      · rw [if_neg hid]
        exact .kept (fun hconfirms ↦ hid hconfirms.1.symm)

theorem residencyFate_residencyRequest {id : String} {nowTick timeoutTicks : BitVec 64}
    {maxRetries : BitVec 32} :
    ResidencyFate g w (.residencyRequest id nowTick timeoutTicks maxRetries) assetId
      ((w.engine.residency.request mode g w.bridge id nowTick timeoutTicks
        maxRetries).1.stateOf assetId) := by
  have hrequested := @request_requested β mode g w.engine.residency w.bridge id nowTick timeoutTicks
    maxRetries
  generalize (w.engine.residency.request mode g w.bridge id nowTick timeoutTicks maxRetries).1 = t
    at hrequested ⊢
  generalize (w.engine.residency.request mode g w.bridge id nowTick timeoutTicks
    maxRetries).2.1 = bridge at hrequested
  cases hrequested with
  | duplicate htracked => exact .kept (fun hconfirms ↦ hconfirms)
  | panicked hnew => exact .kept (fun hconfirms ↦ hconfirms)
  | opened hnew htimeout hsettle =>
    refine residencyFate_put (fun req hreq ↦ ?_) (settle_ne_ready hsettle)
      (fun hconfirms ↦ hconfirms)
    cases hnew.symm.trans hreq

def asksBridge : Op → Bool
  | .residencyRequest .. | .residencyPoll .. => true
  | _ => false

theorem step_frame (mode : Overflow) (sha256 : List UInt8 → String) (g : GameCommit β)
    (w : World β) (op : Op) :
    (step mode sha256 g w op).1.engine.datafiles = w.engine.datafiles ∧
      (asksBridge op = false →
        (step mode sha256 g w op).1.engine.residency = w.engine.residency) := by
  have hmounting (result : Except MountError Mounter) :
      (w.engine.mounting result).1.datafiles = w.engine.datafiles ∧
        (asksBridge op = false →
          (w.engine.mounting result).1.residency = w.engine.residency) := by
    obtain ⟨mounter, hframe⟩ := @mounting_frame w.engine result
    rw [hframe]
    exact ⟨rfl, fun _ ↦ rfl⟩
  cases op with
  | addAsset id fileName fileLen chunkLen expectedHash dependencies lane nowTick =>
    have hadded : Added mode w.engine id fileName fileLen chunkLen expectedHash dependencies
        (w.engine.addAsset mode id fileName fileLen chunkLen expectedHash dependencies lane
          nowTick).1 := addAsset_added
    simp only [step]
    generalize (w.engine.addAsset mode id fileName fileLen chunkLen expectedHash dependencies lane
      nowTick).1 = s' at hadded ⊢
    cases hadded <;> exact ⟨rfl, fun _ ↦ rfl⟩
  | receiveChunk id offset data nowTick =>
    obtain ⟨planned, hframe⟩ := @receiveChunk_frame w.engine id offset nowTick data
    simp [step, hframe]
  | finalizeDownload id cache disk =>
    obtain ⟨planned, hframe⟩ := @finalizeDownload_frame β sha256 w id cache disk
    simp [step, hframe]
  | mountVerify id cache disk =>
    obtain ⟨mounter, hframe⟩ := @mountVerify_frame sha256 w.engine id cache disk
    simp [step, hframe]
  | mountCheckDeps id => exact hmounting _
  | mountBegin id mountPoint => exact hmounting _
  | completeMount id => exact hmounting _
  | mountRegister id => exact hmounting _
  | residencyRequest id nowTick timeoutTicks maxRetries => exact ⟨rfl, nofun⟩
  | residencyPoll id nowTick => exact ⟨rfl, nofun⟩

theorem Confirms.asksBridge (h : Confirms g w assetId op) : asksBridge op = true := by
  cases op with
  | residencyPoll id nowTick => rfl
  | _ => cases h

theorem residencyFate (mode : Overflow) (sha256 : List UInt8 → String) (g : GameCommit β)
    (w : World β) (op : Op) (assetId : String) :
    ResidencyFate g w op assetId
      ((step mode sha256 g w op).1.engine.residency.stateOf assetId) := by
  cases hasks : asksBridge op with
  | false =>
    rw [(step_frame mode sha256 g w op).2 hasks]
    refine .kept (fun hconfirms ↦ ?_)
    cases hasks.symm.trans hconfirms.asksBridge
  | true =>
    cases op with
    | residencyRequest id nowTick timeoutTicks maxRetries => exact residencyFate_residencyRequest
    | residencyPoll id nowTick => exact residencyFate_residencyPoll
    | _ => cases hasks

end Residing

end Aldivine.Streaming.Fates
