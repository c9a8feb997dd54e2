import Aldivine.Foundation.Fallible
import Aldivine.Foundation.Machine
import Aldivine.Foundation.SemVer
import Mathlib.Data.List.AList

namespace Aldivine.Upgrades.Planner

open Foundation.Fallible Foundation.Machine Foundation.SemVer

structure UpgradeGraph where
  novagate : String
  astryn : String
  serverRuntime : String
  astranetProtocol : BitVec 32
  framework : String
  aegis : String
  dbVersion : BitVec 64
  packages : AList (fun _ : String ↦ String)

def UpgradeGraph.default : UpgradeGraph := ⟨"0.1.0", "0.1.0", "0.1.0", 1, "0.1.0", "0.1.0", 1, ∅⟩

structure Incompatibility where
  component : String
  current : String
  target : String
  reason : String
  isBreaking : Bool
deriving DecidableEq

structure ClientUpdateRequirement where
  client : String
  fromVersion : String
  toVersion : String
  mandatory : Bool
deriving DecidableEq

structure DbMigrationRequirement where
  fromVersion : BitVec 64
  toVersion : BitVec 64
  steps : BitVec 64
  destructive : Bool
deriving DecidableEq

inductive RollbackLimit
  | safe
  | conditional (warning : String)
  | impossible (reason : String)
deriving DecidableEq

inductive RestartRequirement
  | none
  | hotReload
  | gracefulServerRestart
  | fullStackRestart
deriving DecidableEq

def RestartRequirement.rank : RestartRequirement → ℕ
  | .none => 0
  | .hotReload => 1
  | .gracefulServerRestart => 2
  | .fullStackRestart => 3

def RestartRequirement.max (a b : RestartRequirement) : RestartRequirement :=
  if a.rank ≤ b.rank then b else a

structure UpgradePlan where
  current : UpgradeGraph
  target : UpgradeGraph
  incompatibilities : List Incompatibility
  clientUpdates : List ClientUpdateRequirement
  dbMigration : Option DbMigrationRequirement
  rollbackLimit : RollbackLimit
  restartRequirement : RestartRequirement

inductive UpgradePlannerError
  | invalidSemver (component version details : String)
deriving DecidableEq

structure Findings where
  incompatibilities : List Incompatibility
  clientUpdates : List ClientUpdateRequirement
  restart : RestartRequirement

namespace Findings

def new : Findings := ⟨[], [], .none⟩

def incompatible (f : Findings) (i : Incompatibility) : Findings :=
  { f with incompatibilities := f.incompatibilities ++ [i] }

def needs (f : Findings) (r : RestartRequirement) : Findings :=
  { f with restart := f.restart.max r }

end Findings

section Plan

variable (mode : Overflow) (parse : String → Except String Version)

def parseVersion (component s : String) : Except UpgradePlannerError Version :=
  (parse s).mapError (.invalidSemver component s)

def checkProtocol (current target : UpgradeGraph) (f : Findings) : Findings :=
  if target.astranetProtocol ≠ current.astranetProtocol then
    let isBreaking := decide (target.astranetProtocol > current.astranetProtocol)
    (f.incompatible
      { component := "AstraNet"
        current := toString current.astranetProtocol.toNat
        target := toString target.astranetProtocol.toNat
        reason :=
          if isBreaking then "Protocol version bumped; older clients cannot connect"
          else "Target protocol version is older than current"
        isBreaking }).needs .gracefulServerRestart
  else f

def checkServerRuntime (current target : UpgradeGraph) (f : Findings) :
    Except UpgradePlannerError Findings := do
  let cur ← parseVersion parse "server_runtime" current.serverRuntime
  let tgt ← parseVersion parse "server_runtime" target.serverRuntime
  return if cur ≠ tgt then
    let f := f.needs .gracefulServerRestart
    if tgt.major > cur.major then
      f.incompatible ⟨"server_runtime", current.serverRuntime, target.serverRuntime,
        "Major server runtime bump", true⟩
    else f
  else f

def checkAstryn (current target : UpgradeGraph) (f : Findings) :
    Except UpgradePlannerError Findings := do
  let cur ← parseVersion parse "astryn" current.astryn
  let tgt ← parseVersion parse "astryn" target.astryn
  let protocolBumped := decide (target.astranetProtocol > current.astranetProtocol)
  return if cur ≠ tgt ∨ protocolBumped then
    { f with clientUpdates := f.clientUpdates ++
        [⟨"astryn", current.astryn, target.astryn, tgt.major > cur.major || protocolBumped⟩] }
  else f

def checkFramework (current target : UpgradeGraph) (f : Findings) :
    Except UpgradePlannerError Findings := do
  let cur ← parseVersion parse "framework" current.framework
  let tgt ← parseVersion parse "framework" target.framework
  return if tgt.major > cur.major then
    (f.incompatible ⟨"framework", current.framework, target.framework,
      "Major framework version upgrade", true⟩).needs .gracefulServerRestart
  else f

/-- One turn of the loop over the target's packages; the flag is `packages_changed`. -/
def checkPackage (current : UpgradeGraph) (acc : Findings × Bool) (name tgtVer : String) :
    Except UpgradePlannerError (Findings × Bool) :=
  match current.packages.lookup name with
  | none => .ok (acc.1, true)
  | some curVer => do
    let cur ← parseVersion parse name curVer
    let tgt ← parseVersion parse name tgtVer
    return if cur ≠ tgt then
      if tgt.major > cur.major ∨ (cur.major = 0 ∧ tgt.minor > cur.minor) then
        (acc.1.incompatible
          ⟨"package:" ++ name, curVer, tgtVer, "Breaking package semver upgrade", true⟩, true)
      else (acc.1, true)
    else acc

def checkPackages (current target : UpgradeGraph) (f : Findings) :
    Except UpgradePlannerError Findings := do
  let (f, changed) ← target.packages.entries.foldlM
    (fun acc e ↦ checkPackage parse current acc e.1 e.2) (f, false)
  return if changed then f.needs .hotReload else f

/-- `(target.db_version - current.db_version).abs()`. -/
def dbSteps (current target : UpgradeGraph) : Option (BitVec 64) :=
  (mode.int 64 (target.dbVersion.toInt - current.dbVersion.toInt)).bind
    (fun d ↦ mode.int 64 d.toInt.natAbs)

def dbMigration (current target : UpgradeGraph) : Option (Option DbMigrationRequirement) :=
  if target.dbVersion ≠ current.dbVersion then
    (dbSteps mode current target).map (fun steps ↦ some
      { fromVersion := current.dbVersion
        toVersion := target.dbVersion
        steps
        destructive := target.dbVersion.toInt < current.dbVersion.toInt })
  else some none

def rollbackLimit (current target : UpgradeGraph) (f : Findings) :
    Option DbMigrationRequirement → RollbackLimit
  | some db =>
    if db.destructive then
      .impossible ("Target DB schema version (" ++ toString target.dbVersion.toInt ++
        ") is older than current (" ++ toString current.dbVersion.toInt ++
        "); non-reversible migration")
    else .conditional "Rollback requires explicit database migration rollback script"
  | none =>
    if f.incompatibilities.any (·.isBreaking) then
      .conditional "Breaking major changes detected in components or packages"
    else .safe

/-- Everything before the database: what can fail to parse. -/
def analyse (current target : UpgradeGraph) : Except UpgradePlannerError Findings :=
  checkServerRuntime parse current target (checkProtocol current target .new) >>=
    checkAstryn parse current target >>= checkFramework parse current target >>=
    checkPackages parse current target

def plan (current target : UpgradeGraph) : Outcome UpgradePlannerError UpgradePlan :=
  match analyse parse current target with
  | .error e => .err e
  | .ok f =>
    match dbMigration mode current target with
    | none => .panic
    | some db =>
      .ok
        { current, target
          incompatibilities := f.incompatibilities
          clientUpdates := f.clientUpdates
          dbMigration := db
          rollbackLimit := rollbackLimit current target f db
          restartRequirement := if db.isSome then f.restart.max .fullStackRestart else f.restart }

end Plan

def NoWork (p : UpgradePlan) : Prop :=
  p.incompatibilities = [] ∧ p.clientUpdates = [] ∧ p.dbMigration = none ∧
    p.restartRequirement = .none

section Specification

variable (parse : String → Except String Version)

structure Parses (g : UpgradeGraph) : Prop where
  novagate : ∃ v, parse g.novagate = .ok v
  astryn : ∃ v, parse g.astryn = .ok v
  serverRuntime : ∃ v, parse g.serverRuntime = .ok v
  framework : ∃ v, parse g.framework = .ok v
  aegis : ∃ v, parse g.aegis = .ok v
  packages : ∀ name s, g.packages.lookup name = some s → ∃ v, parse s = .ok v

structure SameVersions (current target : UpgradeGraph) : Prop where
  novagate : parse current.novagate = parse target.novagate
  astryn : parse current.astryn = parse target.astryn
  serverRuntime : parse current.serverRuntime = parse target.serverRuntime
  astranetProtocol : current.astranetProtocol = target.astranetProtocol
  framework : parse current.framework = parse target.framework
  aegis : parse current.aegis = parse target.aegis
  dbVersion : current.dbVersion = target.dbVersion
  packages : ∀ name,
    (current.packages.lookup name).map parse = (target.packages.lookup name).map parse

/-- Nothing that leaves work undone goes unreported, and the count of the migration steps fits. -/
def Complete (current target : UpgradeGraph) : Prop :=
  ∀ mode, ∃ p, plan mode parse current target = .ok p ∧
    (∀ m, p.dbMigration = some m →
      m.steps.toInt = (target.dbVersion.toInt - current.dbVersion.toInt).natAbs) ∧
    (NoWork p → SameVersions parse current target)

/-- The graphs do not differ where `plan` looks for a difference. -/
structure Compared (current target : UpgradeGraph) : Prop where
  astranetProtocol : current.astranetProtocol = target.astranetProtocol
  serverRuntime : parse current.serverRuntime = parse target.serverRuntime
  astryn : parse current.astryn = parse target.astryn
  framework : ∀ v w, parse current.framework = .ok v → parse target.framework = .ok w →
    w.major ≤ v.major
  packages : ∀ name s, target.packages.lookup name = some s →
    (current.packages.lookup name).map parse = some (parse s)
  dbVersion : current.dbVersion = target.dbVersion

/-- Nor do they differ where it does not look. -/
structure Uncompared (current target : UpgradeGraph) : Prop where
  novagate : parse current.novagate = parse target.novagate
  framework : parse current.framework = parse target.framework
  aegis : parse current.aegis = parse target.aegis
  packages : ∀ name s, current.packages.lookup name = some s →
    (target.packages.lookup name).isSome

end Specification

variable {parse : String → Except String Version} {current target : UpgradeGraph}

theorem sameVersions_iff :
    SameVersions parse current target ↔
      Compared parse current target ∧ Uncompared parse current target := by
  constructor
  · intro h
    refine ⟨⟨h.astranetProtocol, h.serverRuntime, h.astryn, fun v w hv hw ↦ ?_,
      fun name s hs ↦ ?_, h.dbVersion⟩, h.novagate, h.framework, h.aegis, fun name s hs ↦ ?_⟩
    · rw [h.framework] at hv
      obtain rfl := Except.ok.inj (hv.symm.trans hw)
      exact Nat.le_refl _
    · rw [h.packages name, hs, Option.map_some]
    · have hname := h.packages name
      rw [hs, Option.map_some] at hname
      obtain ⟨s', hs', -⟩ := Option.map_eq_some_iff.mp hname.symm
      rw [hs']
      rfl
  · rintro ⟨hcompared, hrest⟩
    refine ⟨hrest.novagate, hcompared.astryn, hcompared.serverRuntime,
      hcompared.astranetProtocol, hrest.framework, hrest.aegis, hcompared.dbVersion,
      fun name ↦ ?_⟩
    cases htgt : target.packages.lookup name with
    | some s => exact hcompared.packages name s htgt
    | none =>
      cases hcur : current.packages.lookup name with
      | none => rfl
      | some s =>
        have hsome := hrest.packages name s hcur
        rw [htgt] at hsome
        cases hsome

section Quiet

def Quiet (f : Findings) : Prop :=
  f.incompatibilities = [] ∧ f.clientUpdates = [] ∧ f.restart = .none

/-- A check that goes through and leaves the findings quiet exactly if `P` holds. -/
def Finds (f : Findings) (x : Except UpgradePlannerError Findings) (P : Prop) : Prop :=
  ∃ f', x = .ok f' ∧ (Quiet f' ↔ Quiet f ∧ P)

variable {f : Findings} {v w : Version}

theorem max_eq_none {a b : RestartRequirement} : a.max b = .none ↔ a = .none ∧ b = .none := by
  cases a <;> cases b <;> decide

theorem not_quiet_needs {r : RestartRequirement} (hr : r ≠ .none) : ¬Quiet (f.needs r) := by
  rintro ⟨-, -, hrestart⟩
  exact hr (max_eq_none.mp hrestart).2

theorem not_quiet_incompatible {i : Incompatibility} : ¬Quiet (f.incompatible i) := by
  rintro ⟨hnil, -, -⟩
  exact List.concat_ne_nil _ _ hnil

theorem quiet_iff_of_loud {f' : Findings} {P : Prop} (h : ¬Quiet f') (hP : ¬P) :
    Quiet f' ↔ Quiet f ∧ P :=
  iff_of_false h (fun hboth ↦ hP hboth.2)

theorem finds_bind {x : Except UpgradePlannerError Findings}
    {g : Findings → Except UpgradePlannerError Findings} {P Q : Prop} (hx : Finds f x P)
    (hg : ∀ f, Finds f (g f) Q) : Finds f (x >>= g) (P ∧ Q) := by
  obtain ⟨f', rfl, hf'⟩ := hx
  obtain ⟨f'', hg', hf''⟩ := hg f'
  refine ⟨f'', hg', ?_⟩
  rw [hf'', hf', and_assoc]

theorem parseVersion_ok {component s : String} (h : parse s = .ok v) :
    parseVersion parse component s = .ok v := by
  rw [parseVersion, h]
  rfl

theorem checkProtocol_quiet :
    Quiet (checkProtocol current target f) ↔
      Quiet f ∧ current.astranetProtocol = target.astranetProtocol := by
  unfold checkProtocol
  split
  · rename_i hne
    exact quiet_iff_of_loud (not_quiet_needs (by decide)) (Ne.symm hne)
  · rename_i heq
    exact (and_iff_left (not_not.mp heq).symm).symm

theorem checkServerRuntime_finds (hv : parse current.serverRuntime = .ok v)
    (hw : parse target.serverRuntime = .ok w) :
    Finds f (checkServerRuntime parse current target f) (v = w) := by
  rw [checkServerRuntime, parseVersion_ok hv, parseVersion_ok hw]
  refine ⟨_, rfl, ?_⟩
  split
  · rename_i hne
    refine quiet_iff_of_loud ?_ hne
    dsimp only
    split
    · exact not_quiet_incompatible
    · exact not_quiet_needs (by decide)
  · rename_i heq
    exact (and_iff_left (not_not.mp heq)).symm

theorem checkAstryn_finds (hv : parse current.astryn = .ok v) (hw : parse target.astryn = .ok w) :
    Finds f (checkAstryn parse current target f)
      (v = w ∧ target.astranetProtocol ≤ current.astranetProtocol) := by
  rw [checkAstryn, parseVersion_ok hv, parseVersion_ok hw]
  refine ⟨_, rfl, ?_⟩
  split
  · rename_i hne
    refine quiet_iff_of_loud ?_ ?_
    · rintro ⟨-, hnil, -⟩
      exact List.concat_ne_nil _ _ hnil
    · rintro ⟨heq, hle⟩
      rcases hne with hne | hbumped
      · exact hne heq
      · exact BitVec.not_lt.mpr hle (of_decide_eq_true hbumped)
  · rename_i heq
    obtain ⟨hsame, hbumped⟩ := not_or.mp heq
    refine (and_iff_left ⟨not_not.mp hsame, ?_⟩).symm
    exact BitVec.not_lt.mp (fun hlt ↦ hbumped (decide_eq_true hlt))

theorem checkFramework_finds (hv : parse current.framework = .ok v)
    (hw : parse target.framework = .ok w) :
    Finds f (checkFramework parse current target f) (w.major ≤ v.major) := by
  rw [checkFramework, parseVersion_ok hv, parseVersion_ok hw]
  refine ⟨_, rfl, ?_⟩
  split
  · rename_i hgt
    exact quiet_iff_of_loud (not_quiet_needs (by decide)) (Nat.not_le.mpr hgt)
  · rename_i hle
    exact (and_iff_left (Nat.not_lt.mp hle)).symm

def Unchanged (acc : Findings × Bool) : Prop := Quiet acc.1 ∧ acc.2 = false

theorem checkPackage_unchanged (acc : Findings × Bool) {name s : String}
    (hcur : ∀ s, current.packages.lookup name = some s → ∃ v, parse s = .ok v)
    (hw : parse s = .ok w) :
    ∃ acc', checkPackage parse current acc name s = .ok acc' ∧
      (Unchanged acc' ↔
        Unchanged acc ∧ (current.packages.lookup name).map parse = some (parse s)) := by
  unfold checkPackage
  cases hlook : current.packages.lookup name with
  | none =>
    refine ⟨_, rfl, iff_of_false ?_ ?_⟩
    · rintro ⟨-, hflag⟩
      cases hflag
    · rintro ⟨-, hsome⟩
      cases hsome
  | some s' =>
    obtain ⟨v, hv⟩ := hcur s' hlook
    dsimp only
    rw [parseVersion_ok hv, parseVersion_ok hw, Option.map_some, hv, hw]
    refine ⟨_, rfl, ?_⟩
    split
    · rename_i hne
      refine iff_of_false ?_ ?_
      · split
        · rintro ⟨-, hflag⟩
          cases hflag
        · rintro ⟨-, hflag⟩
          cases hflag
      · rintro ⟨-, heq⟩
        exact hne (Except.ok.inj (Option.some.inj heq))
    · rename_i heq
      rw [not_not.mp heq]
      exact (and_iff_left rfl).symm

theorem checkPackages_loop (entries : List (Sigma fun _ : String ↦ String))
    (hcur : ∀ name s, current.packages.lookup name = some s → ∃ v, parse s = .ok v)
    (htgt : ∀ e ∈ entries, ∃ v, parse e.2 = .ok v) (acc : Findings × Bool) :
    ∃ acc', entries.foldlM (fun acc e ↦ checkPackage parse current acc e.1 e.2) acc = .ok acc' ∧
      (Unchanged acc' ↔ Unchanged acc ∧
        ∀ e ∈ entries, (current.packages.lookup e.1).map parse = some (parse e.2)) := by
  induction entries generalizing acc with
  | nil => exact ⟨acc, rfl, (and_iff_left (List.forall_mem_nil _)).symm⟩
  | cons e entries ih =>
    obtain ⟨⟨w, hw⟩, htgt⟩ := List.forall_mem_cons.mp htgt
    obtain ⟨acc₁, hfirst, hacc₁⟩ := checkPackage_unchanged acc (hcur e.1) hw
    obtain ⟨acc₂, hrest, hacc₂⟩ := ih htgt acc₁
    refine ⟨acc₂, ?_, ?_⟩
    · rw [List.foldlM_cons, hfirst]
      exact hrest
    · rw [hacc₂, hacc₁, List.forall_mem_cons, and_assoc]

theorem checkPackages_finds
    (hcur : ∀ name s, current.packages.lookup name = some s → ∃ v, parse s = .ok v)
    (htgt : ∀ name s, target.packages.lookup name = some s → ∃ v, parse s = .ok v) :
    Finds f (checkPackages parse current target f)
      (∀ name s, target.packages.lookup name = some s →
        (current.packages.lookup name).map parse = some (parse s)) := by
  have hentries : (∀ e ∈ target.packages.entries,
      (current.packages.lookup e.1).map parse = some (parse e.2)) ↔
      ∀ name s, target.packages.lookup name = some s →
        (current.packages.lookup name).map parse = some (parse s) := by
    constructor
    · intro h name s hs
      exact h ⟨name, s⟩ (AList.mem_lookup_iff.mp hs)
    · intro h e he
      exact h e.1 e.2 (AList.mem_lookup_iff.mpr he)
  obtain ⟨⟨f', changed⟩, hloop, hquiet⟩ := checkPackages_loop target.packages.entries hcur
    (fun e he ↦ htgt e.1 e.2 (AList.mem_lookup_iff.mpr he)) (f, false)
  rw [checkPackages, hloop]
  refine ⟨_, rfl, ?_⟩
  rw [← hentries]
  have hstart : Unchanged (f, false) ↔ Quiet f := and_iff_left rfl
  rw [hstart] at hquiet
  rw [← hquiet]
  cases changed with
  | false => exact (and_iff_left rfl).symm
  | true =>
    refine iff_of_false (not_quiet_needs (by decide)) ?_
    rintro ⟨-, hflag⟩
    cases hflag

theorem analyse_finds (hcur : Parses parse current) (htgt : Parses parse target) :
    ∃ f, analyse parse current target = .ok f ∧
      (Quiet f ∧ current.dbVersion = target.dbVersion ↔ Compared parse current target) := by
  obtain ⟨srv, hsrv⟩ := hcur.serverRuntime
  obtain ⟨srv', hsrv'⟩ := htgt.serverRuntime
  obtain ⟨ast, hast⟩ := hcur.astryn
  obtain ⟨ast', hast'⟩ := htgt.astryn
  obtain ⟨fw, hfw⟩ := hcur.framework
  obtain ⟨fw', hfw'⟩ := htgt.framework
  obtain ⟨f, hf, hquiet⟩ :=
    finds_bind (finds_bind (finds_bind
      (checkServerRuntime_finds (f := checkProtocol current target .new) hsrv hsrv')
      (fun _ ↦ checkAstryn_finds hast hast')) (fun _ ↦ checkFramework_finds hfw hfw'))
      (fun _ ↦ checkPackages_finds hcur.packages htgt.packages)
  refine ⟨f, hf, ?_⟩
  have hnew : Quiet Findings.new := ⟨rfl, rfl, rfl⟩
  rw [hquiet, checkProtocol_quiet, and_iff_right hnew]
  constructor
  · rintro ⟨⟨hprotocol, ⟨⟨hruntime, hastryn, -⟩, hframework⟩, hpackages⟩, hdb⟩
    refine ⟨hprotocol, ?_, ?_, fun v w hv hw ↦ ?_, hpackages, hdb⟩
    · rw [hsrv, hsrv', hruntime]
    · rw [hast, hast', hastryn]
    · rw [← Except.ok.inj (hfw.symm.trans hv), ← Except.ok.inj (hfw'.symm.trans hw)]
      exact hframework
  · intro h
    have hruntime := h.serverRuntime
    have hastryn := h.astryn
    rw [hsrv, hsrv'] at hruntime
    rw [hast, hast'] at hastryn
    exact ⟨⟨h.astranetProtocol, ⟨⟨Except.ok.inj hruntime, Except.ok.inj hastryn,
      BitVec.le_of_eq h.astranetProtocol.symm⟩, h.framework fw fw' hfw hfw'⟩, h.packages⟩,
      h.dbVersion⟩

end Quiet

section Database

theorem ofInt_fits {i : ℤ} (hlow : -2 ^ 63 ≤ i) (hhigh : i < 2 ^ 63) :
    (BitVec.ofInt 64 i).toInt = i := by
  rw [BitVec.toInt_ofInt]
  exact Int.bmod_eq_of_le (by omega) (by omega)

theorem dbSteps_fits
    (h : (target.dbVersion.toInt - current.dbVersion.toInt).natAbs < 2 ^ 63) (mode : Overflow) :
    ∃ steps, dbSteps mode current target = some steps ∧
      steps.toInt = (target.dbVersion.toInt - current.dbVersion.toInt).natAbs := by
  obtain ⟨d, hd, hdiff⟩ := int_of_fits mode
    (ofInt_fits (i := target.dbVersion.toInt - current.dbVersion.toInt) (by omega) (by omega))
  obtain ⟨steps, hsteps, habs⟩ := int_of_fits mode
    (ofInt_fits (i := d.toInt.natAbs) (by omega) (by omega))
  refine ⟨steps, ?_, ?_⟩
  · rw [dbSteps, hd]
    exact hsteps
  · rw [habs, hdiff]

theorem fits_of_dbSteps {steps : BitVec 64} (h : dbSteps .panics current target = some steps) :
    (target.dbVersion.toInt - current.dbVersion.toInt).natAbs < 2 ^ 63 := by
  obtain ⟨d, hd, hsteps⟩ := Option.bind_eq_some_iff.mp h
  have hdiff := int_panics hd
  have habs := int_panics hsteps
  have hlt := BitVec.toInt_lt (x := steps)
  omega

variable {f : Findings} {mode : Overflow}

theorem plan_of_same_db (mode : Overflow) (hf : analyse parse current target = .ok f)
    (hdb : current.dbVersion = target.dbVersion) :
    ∃ p, plan mode parse current target = .ok p ∧ p.dbMigration = none ∧ (NoWork p ↔ Quiet f) := by
  have hnone : dbMigration mode current target = some none := if_neg (not_not.mpr hdb.symm)
  rw [plan, hf, hnone]
  refine ⟨_, rfl, rfl, ?_⟩
  constructor
  · rintro ⟨hincompatible, hclients, -, hrestart⟩
    exact ⟨hincompatible, hclients, hrestart⟩
  · rintro ⟨hincompatible, hclients, hrestart⟩
    exact ⟨hincompatible, hclients, rfl, hrestart⟩

theorem plan_of_other_db {steps : BitVec 64} (hf : analyse parse current target = .ok f)
    (hdb : current.dbVersion ≠ target.dbVersion)
    (hsteps : dbSteps mode current target = some steps) :
    ∃ p m, plan mode parse current target = .ok p ∧ p.dbMigration = some m ∧ m.steps = steps := by
  have hsome : dbMigration mode current target = some (some ⟨current.dbVersion, target.dbVersion,
      steps, target.dbVersion.toInt < current.dbVersion.toInt⟩) := by
    rw [dbMigration, if_pos hdb.symm, hsteps]
    rfl
  rw [plan, hf, hsome]
  exact ⟨_, _, rfl, rfl, rfl⟩

theorem dbSteps_of_plan {p : UpgradePlan} (hdb : current.dbVersion ≠ target.dbVersion)
    (h : plan mode parse current target = .ok p) :
    ∃ steps, dbSteps mode current target = some steps := by
  cases hsteps : dbSteps mode current target with
  | some steps => exact ⟨steps, rfl⟩
  | none =>
    have hpanic : dbMigration mode current target = none := by
      rw [dbMigration, if_pos hdb.symm, hsteps]
      rfl
    unfold plan at h
    split at h
    · cases h
    · rw [hpanic] at h
      cases h

end Database

/-- A plan is complete exactly when the migration steps can be counted and the graphs do not differ
only where `plan` does not look: in NovaGate, in Aegis, in the framework other than by a higher
major version, or in a package that the target lacks. -/
theorem complete_iff (parse : String → Except String Version) (current target : UpgradeGraph)
    (hcur : Parses parse current) (htgt : Parses parse target) :
    Complete parse current target ↔
      (target.dbVersion.toInt - current.dbVersion.toInt).natAbs < 2 ^ 63 ∧
        (Compared parse current target → Uncompared parse current target) := by
  obtain ⟨f, hf, hquiet⟩ := analyse_finds hcur htgt
  constructor
  · intro h
    obtain ⟨p, hp, -, hsame⟩ := h .panics
    constructor
    · by_cases hdb : current.dbVersion = target.dbVersion
      · rw [hdb, Int.sub_self]
        decide
      · obtain ⟨steps, hsteps⟩ := dbSteps_of_plan hdb hp
        exact fits_of_dbSteps hsteps
    · intro hcompared
      obtain ⟨hf', hdb⟩ := hquiet.mpr hcompared
      obtain ⟨p', hp', -, hnowork⟩ := plan_of_same_db .panics hf hdb
      obtain rfl : p' = p := Outcome.ok.inj (hp'.symm.trans hp)
      exact (sameVersions_iff.mp (hsame (hnowork.mpr hf'))).2
  · rintro ⟨hfits, hrest⟩ mode
    by_cases hdb : current.dbVersion = target.dbVersion
    · obtain ⟨p, hp, hnone, hnowork⟩ := plan_of_same_db mode hf hdb
      refine ⟨p, hp, fun m hm ↦ ?_, fun hno ↦ ?_⟩
      · cases hnone.symm.trans hm
      · have hcompared := hquiet.mp ⟨hnowork.mp hno, hdb⟩
        exact sameVersions_iff.mpr ⟨hcompared, hrest hcompared⟩
    · obtain ⟨steps, hsteps, habs⟩ := dbSteps_fits hfits mode
      obtain ⟨p, m, hp, hm, hcount⟩ := plan_of_other_db hf hdb hsteps
      refine ⟨p, hp, fun m' hm' ↦ ?_, fun hno ↦ ?_⟩
      · obtain rfl := Option.some.inj (hm.symm.trans hm')
        rw [hcount]
        exact habs
      · cases hno.2.2.1.symm.trans hm

/-- `Version::parse`, with one text for all that is not a version. -/
def semver (s : String) : Except String Version :=
  match Foundation.SemVer.parse s with
  | some v => .ok v
  | none => .error "unexpected character"

def withAegis (version : String) : UpgradeGraph := { UpgradeGraph.default with aegis := version }

def withDb (version : BitVec 64) : UpgradeGraph :=
  { UpgradeGraph.default with dbVersion := version }

theorem withAegis_parses {version : String} {v : Version} (h : semver version = .ok v) :
    Parses semver (withAegis version) := by
  have hfirst : semver "0.1.0" = .ok ⟨0, 1, 0, [], []⟩ := by decide +kernel
  refine ⟨⟨_, hfirst⟩, ⟨_, hfirst⟩, ⟨_, hfirst⟩, ⟨_, hfirst⟩, ⟨v, h⟩, fun name s hs ↦ ?_⟩
  cases hs

theorem withDb_parses (version : BitVec 64) : Parses semver (withDb version) := by
  have hfirst : semver "0.1.0" = .ok ⟨0, 1, 0, [], []⟩ := by decide +kernel
  refine ⟨⟨_, hfirst⟩, ⟨_, hfirst⟩, ⟨_, hfirst⟩, ⟨_, hfirst⟩, ⟨_, hfirst⟩, fun name s hs ↦ ?_⟩
  cases hs

theorem migration_complete : Complete semver (withDb 1) (withDb 2) := by
  refine (complete_iff semver _ _ (withDb_parses 1) (withDb_parses 2)).mpr ⟨by decide, fun _ ↦ ?_⟩
  refine ⟨rfl, rfl, rfl, fun name s hs ↦ ?_⟩
  cases hs

/-- A new version of Aegis goes unreported, and the steps between the outermost database versions
overflow. -/
theorem unreported_upgrade :
    Parses semver (withAegis "0.1.0") ∧ Parses semver (withAegis "2.0.0") ∧
      ¬Complete semver (withAegis "0.1.0") (withAegis "2.0.0") ∧
      ¬Complete semver (withDb (.intMin 64)) (withDb (.intMax 64)) := by
  have hold : semver "0.1.0" = .ok ⟨0, 1, 0, [], []⟩ := by decide +kernel
  have hnew : semver "2.0.0" = .ok ⟨2, 0, 0, [], []⟩ := by decide +kernel
  have hcur := withAegis_parses hold
  have htgt := withAegis_parses hnew
  refine ⟨hcur, htgt, fun h ↦ ?_, fun h ↦ ?_⟩
  · obtain ⟨p, hp, -, hsame⟩ := h .panics
    obtain ⟨f, hf, hquiet⟩ := analyse_finds hcur htgt
    have hcompared : Compared semver (withAegis "0.1.0") (withAegis "2.0.0") := by
      refine ⟨rfl, rfl, rfl, fun v w hv hw ↦ ?_, fun name s hs ↦ ?_, rfl⟩
      · obtain rfl := Except.ok.inj (hv.symm.trans hw)
        exact Nat.le_refl _
      · cases hs
    obtain ⟨hf', hdb⟩ := hquiet.mpr hcompared
    obtain ⟨p', hp', -, hnowork⟩ := plan_of_same_db .panics hf hdb
    obtain rfl : p' = p := Outcome.ok.inj (hp'.symm.trans hp)
    have haegis := (hsame (hnowork.mpr hf')).aegis
    cases hold.symm.trans (haegis.trans hnew)
  · obtain ⟨p, hp, -⟩ := h .panics
    obtain ⟨steps, hsteps⟩ := dbSteps_of_plan (by decide) hp
    exact absurd (fits_of_dbSteps hsteps) (by decide)

end Aldivine.Upgrades.Planner
