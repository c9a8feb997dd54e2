import Aldivine.Foundation.Execution
import Aldivine.Streaming.Fates

namespace Aldivine.Streaming.JoinGate

open Residency.Model hiding step World Op Answer
open Foundation.Execution Foundation.Machine Mounts Engine Fates

variable {β : Type} {mode : Overflow} {sha256 : List UInt8 → String} {g : GameCommit β}
  {w : World β} {tr : List (World β × Op)} {op : Op} {assetId : String} {nowTick : BitVec 64}

/-- The asset is downloaded, its bytes were committed under its hash, and it is registered with all
of its dependencies. -/
def Backed (sha256 : List UInt8 → String) (w : World β) (tr : List (World β × Op))
    (assetId : String) : Prop :=
  ∃ info rec, w.engine.downloadsPlanned.lookup assetId = some info ∧
    info.download.isComplete = true ∧ (∃ x ∈ tr, Commits sha256 assetId info.expectedHash x) ∧
    w.engine.mounter.records.lookup assetId = some rec ∧ rec.state = .registered ∧
    Resolves w.engine rec

structure Sound (sha256 : List UInt8 → String) (w : World β) (tr : List (World β × Op)) : Prop where
  ready : ∀ assetId nowTick, w.engine.assetState assetId nowTick = .ok .ready →
    Backed sha256 w tr assetId
  joinReady : ∀ required nowTick, w.engine.joinReady required nowTick = true →
    ∀ assetId ∈ required, Backed sha256 w tr assetId

structure Booked (sha256 : List UInt8 → String) (w : World β) (tr : List (World β × Op)) :
    Prop where
  cached : ∀ assetId info, w.engine.downloadsPlanned.lookup assetId = some info →
    (info.cached = true ↔ ∃ x ∈ tr, Commits sha256 assetId info.expectedHash x)
  complete : ∀ assetId info, w.engine.downloadsPlanned.lookup assetId = some info →
    info.cached = true → info.download.isComplete = true
  committed : ∀ assetId hash, ∀ x ∈ tr, Commits sha256 assetId hash x →
    ∃ info, w.engine.downloadsPlanned.lookup assetId = some info
  resolved : ∀ assetId rec, w.engine.mounter.records.lookup assetId = some rec →
    pastDependencies rec.state = true → Resolves w.engine rec

def Marked (w : World β) : Prop :=
  ∀ assetId info, w.engine.downloadsPlanned.lookup assetId = some info →
    w.engine.residency.stateOf assetId = some .ready →
    info.cached = true ∧ w.engine.mounter.stateOf assetId = some .registered

/-- No asset is planned under the name of a ready one, and the bridge confirms no asset that is not
cached and registered. -/
structure Gated (mode : Overflow) (g : GameCommit β) (w : World β) (op : Op) : Prop where
  fresh : ∀ assetId, Adds mode w assetId op → w.engine.residency.stateOf assetId ≠ some .ready
  confirms : ∀ assetId info, Confirms g w assetId op →
    w.engine.downloadsPlanned.lookup assetId = some info →
    info.cached = true ∧ w.engine.mounter.stateOf assetId = some .registered

theorem assetState_ready_iff {s : StreamingEngine} :
    s.assetState assetId nowTick = .ok .ready ↔
      (s.downloadsPlanned.lookup assetId).isSome ∧ s.residency.stateOf assetId = some .ready := by
  unfold StreamingEngine.assetState
  cases s.downloadsPlanned.lookup assetId with
  | none => simp
  | some info =>
    cases s.residency.stateOf assetId with
    | some state => cases state <;> simp
    | none =>
      refine iff_of_false ?_ (by simp)
      dsimp only
      split
      · simp
      · split
        · split <;> simp
        · split
          · simp
          · split <;> simp

theorem joinReady_iff {s : StreamingEngine} {required : List String} :
    s.joinReady required nowTick = true ↔
      ∀ assetId ∈ required, s.assetState assetId nowTick = .ok .ready := by
  unfold StreamingEngine.joinReady
  rw [List.all_eq_true]
  refine forall₂_congr (fun assetId _ ↦ ?_)
  split
  · exact iff_of_true rfl ‹_›
  · exact iff_of_false nofun ‹_›

theorem sound_iff_marked (hbooked : Booked sha256 w tr) : Sound sha256 w tr ↔ Marked w := by
  constructor
  · intro h assetId info hinfo hready
    have hstate : w.engine.assetState assetId 0 = .ok .ready :=
      assetState_ready_iff.mpr ⟨Option.isSome_of_eq_some hinfo, hready⟩
    obtain ⟨info', rec, hinfo', -, hcommits, hrec, hregistered, -⟩ := h.ready assetId 0 hstate
    cases hinfo.symm.trans hinfo'
    refine ⟨(hbooked.cached assetId info hinfo).mpr hcommits, ?_⟩
    rw [Mounter.stateOf, hrec, Option.map_some, hregistered]
  · intro h
    have hready (assetId : String) (nowTick : BitVec 64)
        (hstate : w.engine.assetState assetId nowTick = .ok .ready) :
        Backed sha256 w tr assetId := by
      obtain ⟨hplanned, hresident⟩ := assetState_ready_iff.mp hstate
      obtain ⟨info, hinfo⟩ := Option.isSome_iff_exists.mp hplanned
      obtain ⟨hcached, hstateOf⟩ := h assetId info hinfo hresident
      obtain ⟨rec, hrec, hregistered⟩ := Option.map_eq_some_iff.mp hstateOf
      have hpast : pastDependencies rec.state = true := by rw [hregistered]; rfl
      exact ⟨info, rec, hinfo, hbooked.complete assetId info hinfo hcached,
        (hbooked.cached assetId info hinfo).mp hcached, hrec, hregistered,
        hbooked.resolved assetId rec hrec hpast⟩
    refine ⟨hready, fun required nowTick hjoin assetId hmem ↦ ?_⟩
    exact hready assetId nowTick (joinReady_iff.mp hjoin assetId hmem)

theorem registered_step (h : w.engine.mounter.stateOf assetId = some .registered) :
    (step mode sha256 g w op).1.engine.mounter.stateOf assetId = some .registered := by
  obtain ⟨rec, hrec, hregistered⟩ := Option.map_eq_some_iff.mp h
  have hfate := mountFate mode sha256 g w op assetId
  unfold Mounter.stateOf
  generalize (step mode sha256 g w op).1.engine.mounter.records.lookup assetId = new at hfate ⊢
  cases hfate with
  | kept => exact h
  | queued hnew hstate => cases hrec.symm.trans hnew
  | moved hrec' hlive hdeps hpast =>
    cases hrec.symm.trans hrec'
    rw [hregistered] at hlive
    cases hlive

theorem commits_complete {hash : String} (h : Commits sha256 assetId hash (w, op))
    {info : AssetMeta} (hinfo : w.engine.downloadsPlanned.lookup assetId = some info) :
    info.download.isComplete = true := by
  obtain ⟨_, _, info', bytes, _, hinfo', _, hbytes, _⟩ := h
  cases hinfo.symm.trans hinfo'
  unfold Downloads.Model.Download.assembled at hbytes
  split at hbytes
  · rename_i hcomplete
    exact hcomplete
  · cases hbytes

theorem resolves_step {rec : MountRecord} :
    Resolves (step mode sha256 g w op).1.engine rec ↔ Resolves w.engine rec := by
  unfold Resolves
  rw [(step_frame mode sha256 g w op).1]

theorem commits_concat {hash : String} :
    (∃ x ∈ tr ++ [(w, op)], Commits sha256 assetId hash x) ↔
      (∃ x ∈ tr, Commits sha256 assetId hash x) ∨ Commits sha256 assetId hash (w, op) := by
  simp only [List.mem_append, List.mem_singleton, or_and_right, exists_or, exists_eq_left]

theorem lookup_of_adds (h : Adds mode w assetId op) :
    w.engine.downloadsPlanned.lookup assetId = none := by
  cases op with
  | addAsset id fileName fileLen chunkLen expectedHash dependencies lane nowTick =>
    obtain ⟨rfl, hnew, -⟩ := h
    exact hnew
  | _ => cases h

theorem planned_step (h : ∃ info, w.engine.downloadsPlanned.lookup assetId = some info) :
    ∃ info, (step mode sha256 g w op).1.engine.downloadsPlanned.lookup assetId = some info := by
  have hfate := planFate mode sha256 g w op assetId
  generalize (step mode sha256 g w op).1.engine.downloadsPlanned.lookup assetId = new at hfate ⊢
  cases hfate with
  | kept hadds hcommits => exact h
  | added hadds hcached hcommits => exact ⟨_, rfl⟩
  | received hinfo hcomplete hcommits => exact ⟨_, rfl⟩
  | cached hinfo hcommits => exact ⟨_, rfl⟩

theorem booked_cached (h : Booked sha256 w tr) {info : AssetMeta}
    (hfate : PlanFate mode sha256 w op assetId (some info)) :
    (info.cached = true ↔ ∃ x ∈ tr ++ [(w, op)], Commits sha256 assetId info.expectedHash x) ∧
      (info.cached = true → info.download.isComplete = true) := by
  rw [commits_concat]
  generalize hnew : some info = new at hfate
  cases hfate with
  | kept hadds hcommits =>
    rw [or_iff_left (hcommits _)]
    exact ⟨h.cached assetId info hnew.symm, h.complete assetId info hnew.symm⟩
  | added hadds hcached hcommits =>
    cases hnew
    rw [or_iff_left (hcommits _), hcached]
    refine ⟨iff_of_false nofun (fun hpast ↦ ?_), nofun⟩
    obtain ⟨x, hx, hpast⟩ := hpast
    obtain ⟨info', hinfo'⟩ := h.committed assetId _ x hx hpast
    cases (lookup_of_adds hadds).symm.trans hinfo'
  | @received info' download hinfo hcomplete hcommits =>
    cases hnew
    rw [or_iff_left (hcommits _)]
    refine ⟨h.cached assetId info' hinfo, fun hcached ↦ ?_⟩
    have hdone := h.complete assetId info' hinfo hcached
    rw [hcomplete hdone]
    exact hdone
  | cached hinfo hcommits =>
    cases hnew
    have hdone := commits_complete hcommits hinfo
    exact ⟨iff_of_true rfl (.inr hcommits), fun _ ↦ hdone⟩

theorem booked_resolved (h : Booked sha256 w tr) {rec : MountRecord}
    (hfate : MountFate w assetId (some rec)) (hpast : pastDependencies rec.state = true) :
    Resolves w.engine rec := by
  generalize hnew : some rec = new at hfate
  cases hfate with
  | kept => exact h.resolved assetId rec hnew.symm hpast
  | queued hnone hstate =>
    cases hnew
    rw [hstate] at hpast
    cases hpast
  | @moved old _ hrec hlive hdeps hlooked =>
    cases hnew
    have hresolves : Resolves w.engine old := by
      rcases hlooked hpast with hbefore | hnow
      · exact h.resolved assetId old hrec hbefore
      · exact hnow
    rw [Resolves, hdeps]
    exact hresolves

theorem booked_step (h : Booked sha256 w tr) :
    Booked sha256 (step mode sha256 g w op).1 (tr ++ [(w, op)]) := by
  refine ⟨fun assetId info hinfo ↦ ?_, fun assetId info hinfo ↦ ?_,
    fun assetId hash x hx hcommits ↦ ?_, fun assetId rec hrec hpast ↦ ?_⟩
  · exact (booked_cached h (hinfo ▸ planFate mode sha256 g w op assetId)).1
  · exact (booked_cached h (hinfo ▸ planFate mode sha256 g w op assetId)).2
  · apply planned_step
    rcases commits_concat.mp ⟨x, hx, hcommits⟩ with ⟨y, hy, hcommits⟩ | hcommits
    · exact h.committed assetId hash y hy hcommits
    · obtain ⟨_, _, info, _, _, hinfo, _⟩ := hcommits
      exact ⟨info, hinfo⟩
  · exact resolves_step.mpr (booked_resolved h (hrec ▸ mountFate mode sha256 g w op assetId) hpast)

theorem booked_run (mode : Overflow) (sha256 : List UInt8 → String) (g : GameCommit β)
    (watchdog : Watchdog) (bridge : β) (ops : List Op) :
    Booked sha256 (run (step mode sha256 g) ⟨.new watchdog, bridge⟩ ops)
      (trace (step mode sha256 g) ⟨.new watchdog, bridge⟩ ops) := by
  refine invariant_trace (I := Booked sha256) (P := fun _ _ ↦ True)
    (fun w tr op h _ ↦ booked_step h) ?_ ops (fun _ _ ↦ trivial)
  refine ⟨fun _ _ hinfo ↦ ?_, fun _ _ hinfo ↦ ?_, fun _ _ _ hx ↦ ?_, fun _ _ hrec ↦ ?_⟩
  · cases hinfo
  · cases hinfo
  · cases hx
  · cases hrec

theorem ready_of_confirms (h : Confirms g w assetId op) :
    (step mode sha256 g w op).1.engine.residency.stateOf assetId = some .ready := by
  have hfate := residencyFate mode sha256 g w op assetId
  generalize (step mode sha256 g w op).1.engine.residency.stateOf assetId = new at hfate ⊢
  cases hfate with
  | kept hquiet => exact absurd h hquiet
  | moved hquiet hold hnew => exact absurd h hquiet
  | confirmed hconfirms => rfl

theorem ready_step (h : w.engine.residency.stateOf assetId = some .ready) :
    (step mode sha256 g w op).1.engine.residency.stateOf assetId = some .ready := by
  have hfate := residencyFate mode sha256 g w op assetId
  generalize (step mode sha256 g w op).1.engine.residency.stateOf assetId = new at hfate ⊢
  cases hfate with
  | kept hquiet => exact h
  | moved hquiet hold hnew => exact absurd h hold
  | confirmed hconfirms => rfl

theorem ready_cases
    (h : (step mode sha256 g w op).1.engine.residency.stateOf assetId = some .ready) :
    w.engine.residency.stateOf assetId = some .ready ∨ Confirms g w assetId op := by
  have hfate := residencyFate mode sha256 g w op assetId
  generalize (step mode sha256 g w op).1.engine.residency.stateOf assetId = new at hfate h
  cases hfate with
  | kept hquiet => exact .inl h
  | moved hquiet hold hnew => exact absurd (Option.some.inj h) hnew
  | confirmed hconfirms => exact .inr hconfirms

theorem confirms_frame (h : Confirms g w assetId op) :
    (step mode sha256 g w op).1.engine.downloadsPlanned = w.engine.downloadsPlanned ∧
      (step mode sha256 g w op).1.engine.mounter = w.engine.mounter := by
  cases op with
  | residencyPoll id nowTick => exact ⟨rfl, rfl⟩
  | _ => cases h

theorem gated_of_marked (h : Marked (step mode sha256 g w op).1) : Gated mode g w op := by
  constructor
  · intro assetId hadds hready
    have hfate := planFate mode sha256 g w op assetId
    generalize hplanned : (step mode sha256 g w op).1.engine.downloadsPlanned.lookup assetId = new
      at hfate
    cases hfate with
    | kept hquiet hcommits => exact hquiet hadds
    | added hadds' hcached hcommits =>
      have hmarked := (h assetId _ hplanned (ready_step hready)).1
      cases hcached.symm.trans hmarked
    | received hinfo hcomplete hcommits => cases (lookup_of_adds hadds).symm.trans hinfo
    | cached hinfo hcommits => cases (lookup_of_adds hadds).symm.trans hinfo
  · intro assetId info hconfirms hinfo
    obtain ⟨hplanned, hmounter⟩ := @confirms_frame β mode sha256 g w op assetId hconfirms
    have hmarked := h assetId info (hplanned ▸ hinfo) (ready_of_confirms hconfirms)
    rw [hmounter] at hmarked
    exact hmarked

theorem marked_of_gated (h : Marked w) (hgated : Gated mode g w op) :
    Marked (step mode sha256 g w op).1 := by
  intro assetId info hinfo hready
  rcases ready_cases hready with hbefore | hconfirms
  · have hfate := planFate mode sha256 g w op assetId
    rw [hinfo] at hfate
    generalize hnew : some info = new at hfate
    cases hfate with
    | kept hadds hcommits =>
      obtain ⟨hcached, hregistered⟩ := h assetId info hnew.symm hbefore
      exact ⟨hcached, registered_step hregistered⟩
    | added hadds hcached hcommits => exact absurd hbefore (hgated.fresh assetId hadds)
    | received hold hcomplete hcommits =>
      cases hnew
      obtain ⟨hcached, hregistered⟩ := h assetId _ hold hbefore
      exact ⟨hcached, registered_step hregistered⟩
    | cached hold hcommits =>
      cases hnew
      exact ⟨rfl, registered_step (h assetId _ hold hbefore).2⟩
  · obtain ⟨hplanned, hmounter⟩ := @confirms_frame β mode sha256 g w op assetId hconfirms
    rw [hplanned] at hinfo
    rw [hmounter]
    exact hgated.confirms assetId info hconfirms hinfo

/-- Along a run, whatever the bridge does, every asset that counts for joining is backed exactly
when the calls are gated. -/
theorem join_gate_sound_iff (mode : Overflow) (sha256 : List UInt8 → String) (g : GameCommit β)
    (watchdog : Watchdog) (bridge : β) (ops : List Op) :
    (∀ before, before <+: ops →
        Sound sha256 (run (step mode sha256 g) ⟨.new watchdog, bridge⟩ before)
          (trace (step mode sha256 g) ⟨.new watchdog, bridge⟩ before)) ↔
      ∀ x ∈ trace (step mode sha256 g) ⟨.new watchdog, bridge⟩ ops, Gated mode g x.1 x.2 := by
  have hmarked : (∀ before, before <+: ops →
      Marked (run (step mode sha256 g) ⟨.new watchdog, bridge⟩ before)) ↔ _ :=
    invariant_run_iff (B := fun _ ↦ True) (P := Gated mode g) (fun _ _ _ ↦ trivial)
      (fun w op _ h ↦ ⟨gated_of_marked, marked_of_gated h⟩) trivial
      (fun _ _ hinfo ↦ by cases hinfo) ops
  rw [← hmarked]
  exact forall₂_congr (fun before _ ↦ sound_iff_marked (booked_run ..))

def eager : GameCommit Unit where
  requestResidency _ _ := (.accepted, ())
  confirmResident _ _ := (true, ())

/-- The residency of an asset is asked for before anything of it is received. -/
def rushed : List Op :=
  [.addAsset "a" "a.ytd" 4 4 "" [] .joinCritical 0, .residencyRequest "a" 0 10 0,
    .residencyPoll "a" 1]

theorem rushed_unbacked :
    ¬ ∃ sha256, ∀ before, before <+: rushed →
      Sound sha256 (run (step .wraps sha256 eager) ⟨.new (.new 5), ()⟩ before)
        (trace (step .wraps sha256 eager) ⟨.new (.new 5), ()⟩ before) := by
  rintro ⟨sha256, h⟩
  -- nothing is hashed
  have hrun : run (step .wraps sha256 eager) ⟨.new (.new 5), ()⟩ rushed =
      run (step .wraps (fun _ ↦ "") eager) ⟨.new (.new 5), ()⟩ rushed := rfl
  have hready := (h rushed List.prefix_rfl).ready "a" 1
  rw [hrun] at hready
  obtain ⟨info, _, hinfo, hcomplete, _⟩ := hready (by decide +kernel)
  have hpending : ((run (step .wraps (fun _ ↦ "") eager) ⟨.new (.new 5), ()⟩
      rushed).engine.downloadsPlanned.lookup "a").map (·.download.isComplete) = some false := by
    decide +kernel
  rw [hinfo, Option.map_some, hcomplete] at hpending
  cases hpending

end Aldivine.Streaming.JoinGate
