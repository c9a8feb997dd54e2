import Aldivine.Foundation.Execution
import Aldivine.Foundation.Table
import Aldivine.Foundation.Text
import Mathlib.Data.List.Chain

namespace Aldivine.Resources.Supervision

open Foundation.Execution Foundation.Table Foundation.Text

inductive ResourceState
  | stopped
  | discovered
  | validating
  | dependencyResolution
  | starting
  | scriptHostStarting
  | migrationsReady
  | healthChecking
  | healthy
  | degraded
  | quarantined
  | stopping
  | failed
deriving DecidableEq

def ResourceState.isServing : ResourceState → Bool
  | healthy | degraded => true
  | _ => false

/-- `log` has every state that was set, in order, for between two of them the lock may be free. -/
structure LifecycleManager where
  states : AList (fun _ : String ↦ ResourceState)
  handles : AList (fun _ : String ↦ ℕ)
  log : List (String × ResourceState)

namespace LifecycleManager

def new : LifecycleManager := ⟨∅, ∅, []⟩

def state (l : LifecycleManager) (name : String) : ResourceState :=
  (l.states.lookup name).getD .stopped

def set (l : LifecycleManager) (name : String) (state : ResourceState) : LifecycleManager :=
  { l with states := l.states.insert name state, log := l.log ++ [(name, state)] }

def canStart (l : LifecycleManager) (name : String) : Bool :=
  match l.state name with
  | .stopped | .failed => true
  | _ => false

def markHealthy (l : LifecycleManager) (name : String) (handleCount : ℕ) :
    Except String LifecycleManager :=
  if l.state name ≠ .healthChecking then
    .error ("resource '" ++ name ++ "' not in HealthChecking state before mark_healthy")
  else
    .ok { l.set name .healthy with handles := l.handles.insert name handleCount }

/-- `handles.get(name).copied().unwrap_or(0)`. -/
def leaked (l : LifecycleManager) (name : String) : ℕ := (l.handles.lookup name).getD 0

def stop (l : LifecycleManager) (name : String) : Except String LifecycleManager :=
  if l.leaked name ≠ 0 then
    .error ("resource '" ++ name ++ "' leaked " ++ toString (l.leaked name) ++ " handles on stop")
  else
    .ok (l.set name .stopped)

def releaseHandle (l : LifecycleManager) (name : String) : LifecycleManager :=
  match l.handles.lookup name with
  | some c => if 0 < c then { l with handles := l.handles.insert name (c - 1) } else l
  | none => l

end LifecycleManager

structure Dependency where
  name : String
deriving DecidableEq

structure Manifest where
  name : String
  version : String
  dependencies : List Dependency
  serverScripts : List String
  databaseMigrations : List String
deriving DecidableEq

structure Root where
  base : String
  name : String
deriving DecidableEq

/-- The script host that a server is built with. `exec` knows what ran before. -/
structure LuaRuntime where
  new : Except String Unit
  exec : List String → String → Except String Unit

structure World where
  isManifest : Root → Bool
  readManifest : Root → Except String String
  fromToml : String → Except String Manifest
  path : Root → String → String
  readScript : Root → String → Except String String
  lua : Option LuaRuntime

def Manifest.parse (w : World) (text : String) : Except String Manifest := do
  let m ← (w.fromToml text).mapError ("manifest parse error: " ++ ·)
  if isBlank m.name then throw "manifest missing field: name"
  if isBlank m.version then throw "manifest missing field: version"
  return m

def resourceRoot (w : World) (name configured : String) : Option Root :=
  ([configured, "base-resources", "../../base-resources"].map (Root.mk · name)).find? w.isManifest

def loadManifest (w : World) (name configuredDir : String) : Except String Manifest := do
  let some root := resourceRoot w name configuredDir
    | throw ("manifest not found for '" ++ name ++ "'")
  let text ← (w.readManifest root).mapError ("read manifest: " ++ ·)
  (Manifest.parse w text).mapError ("parse manifest: " ++ ·)

def checkDependencies (w : World) (manifest : Manifest) (configuredDir : String) :
    Except String Unit :=
  match manifest.dependencies.find?
      (fun dep ↦ (resourceRoot w dep.name configuredDir).isNone) with
  | some dep =>
    .error ("resource '" ++ manifest.name ++ "' missing dependency '" ++ dep.name ++ "'")
  | none => .ok ()

/-- The loop over the scripts, with the sources of those that ran. -/
def runScripts (w : World) (rt : LuaRuntime) (root : Root) :
    List String → List String → Except String ℕ
  | loaded, [] => .ok loaded.length
  | loaded, script :: scripts => do
    let src ← (w.readScript root script).mapError (s!"read {w.path root script}: " ++ ·)
    (rt.exec loaded src).mapError (s!"exec {w.path root script}: " ++ ·)
    runScripts w rt root (loaded ++ [src]) scripts

def startResourceScripts (w : World) (name configuredDir : String) : Except String ℕ :=
  match w.lua with
  | none =>
    .error ("resource '" ++ name ++ "' needs the lua script host (rebuild with --features lua)")
  | some rt => do
    let some root := resourceRoot w name configuredDir
      | throw ("manifest not found for '" ++ name ++ "'")
    let text ← (w.readManifest root).mapError ("read manifest: " ++ ·)
    let manifest ← (Manifest.parse w text).mapError ("parse manifest: " ++ ·)
    if manifest.serverScripts.isEmpty then return 0
    rt.new
    runScripts w rt root [] manifest.serverScripts

structure ServerState where
  lifecycle : LifecycleManager
  counters : AList (fun _ : String ↦ ℕ)

namespace ServerState

def new : ServerState := ⟨.new, ∅⟩

def incr (s : ServerState) (name : String) (n : ℕ) : ServerState :=
  { s with counters := s.counters.insert name ((s.counters.lookup name).getD 0 + n) }

def failPoint (s : ServerState) (name : String) (state : ResourceState) : ServerState :=
  { s with lifecycle := s.lifecycle.set name state }

def fail (s : ServerState) (name : String) : ServerState :=
  (s.failPoint name .failed).incr "resources.start_failures" 1

end ServerState

/-- The world at the three moments of a start at which the supervisor looks at it. -/
structure Attempt where
  load : World
  check : World
  run : World

def transitionStart (dir : String) (w : Attempt) (s : ServerState) (name : String) : ServerState :=
  if !s.lifecycle.canStart name then s
  else
    let s := s.failPoint name .validating
    match loadManifest w.load name dir with
    | .error _ => s.fail name
    | .ok manifest =>
      let s := s.failPoint name .dependencyResolution
      match checkDependencies w.check manifest dir with
      | .error _ => s.fail name
      | .ok _ =>
        let s := s.failPoint name .starting
        let s := s.failPoint name .scriptHostStarting
        match startResourceScripts w.run name dir with
        | .error _ => s.fail name
        | .ok handles =>
          if !manifest.databaseMigrations.isEmpty then s.fail name
          else
            let s := s.failPoint name .migrationsReady
            let s := s.failPoint name .healthChecking
            match s.lifecycle.markHealthy name handles with
            | .ok l => ServerState.incr { s with lifecycle := l } "resources.started" 1
            | .error _ => s.fail name

def stopReleasing (k : ℕ) (s : ServerState) (name : String) : ServerState :=
  let s := s.failPoint name .stopping
  let l := (fun l ↦ LifecycleManager.releaseHandle l name)^[k] s.lifecycle
  match l.stop name with
  | .ok l => ServerState.incr { s with lifecycle := l } "resources.stopped" 1
  | .error _ =>
    ServerState.incr { s with lifecycle := l.set name .failed } "resources.stop_failures" 1

def releases : ℕ := 4096

def transitionStop (s : ServerState) (name : String) : ServerState := stopReleasing releases s name

def transitionRestart (dir : String) (w : Attempt) (s : ServerState) (name : String) :
    ServerState :=
  transitionStart dir w (transitionStop s name) name

inductive LifecycleCommand
  | start (name : String)
  | stop (name : String)
  | restart (name : String)
  | reload (name : String)
deriving DecidableEq

def LifecycleCommand.name : LifecycleCommand → String
  | start name | stop name | restart name | reload name => name

/-- A command as it is received, and whether the server is shutting down by then. -/
structure Received where
  command : LifecycleCommand
  shutdown : Bool
  world : Attempt

def step (dir : String) (s : ServerState) (input : Received) : ServerState × Unit :=
  if input.shutdown then (s, ())
  else
    match input.command with
    | .start name => (transitionStart dir input.world s name, ())
    | .stop name => (transitionStop s name, ())
    | .restart name | .reload name => (transitionRestart dir input.world s name, ())

def ResourceState.next : ResourceState → List ResourceState
  | stopped => [validating, stopping]
  | failed => [validating, stopping]
  | validating => [dependencyResolution, failed]
  | dependencyResolution => [starting, failed]
  | starting => [scriptHostStarting]
  | scriptHostStarting => [migrationsReady, failed]
  | migrationsReady => [healthChecking]
  | healthChecking => [healthy]
  | healthy => [stopping]
  | stopping => [stopped, failed]
  | discovered | degraded | quarantined => []

/-- What becomes of an attempt to start a resource: the handles, or why there are none. -/
def Attempt.outcome (w : Attempt) (name dir : String) : Except String ℕ := do
  let manifest ← loadManifest w.load name dir
  checkDependencies w.check manifest dir
  let handles ← startResourceScripts w.run name dir
  if !manifest.databaseMigrations.isEmpty then
    throw "database migrations declared but no migration runner is wired"
  return handles

inductive Rest
  | stopped
  | healthy (handles : ℕ)
  | failed (handles : ℕ)
deriving DecidableEq

namespace Rest

def state : Rest → ResourceState
  | stopped => .stopped
  | healthy _ => .healthy
  | failed _ => .failed

def handles : Rest → ℕ
  | stopped => 0
  | healthy n | failed n => n

@[simp] theorem handles_failed (n : ℕ) : (failed n).handles = n := rfl

def start (outcome : Except String ℕ) : Rest → Rest
  | healthy n => healthy n
  | r =>
    match outcome with
    | .ok n => healthy n
    | .error _ => failed r.handles

def stop (r : Rest) : Rest :=
  if r.handles ≤ releases then stopped else failed (r.handles - releases)

def after (dir name : String) (r : Rest) (input : Received) : Rest :=
  if input.shutdown ∨ input.command.name ≠ name then r
  else
    match input.command with
    | .start _ => r.start (input.world.outcome name dir)
    | .stop _ => r.stop
    | .restart _ | .reload _ => r.stop.start (input.world.outcome name dir)

end Rest

def LifecycleManager.history (l : LifecycleManager) (name : String) : List ResourceState :=
  (l.log.filter (fun x ↦ x.1 = name)).map (·.2)

/-- A resource is at rest, and has come there on a path of states from `stopped`. -/
structure At (l : LifecycleManager) (name : String) (r : Rest) : Prop where
  state : l.state name = r.state
  handles : l.leaked name = r.handles
  path : (.stopped :: l.history name).IsChain (fun a b ↦ b ∈ a.next)
  last : (.stopped :: l.history name).getLast (List.cons_ne_nil _ _) = r.state

/-- The states of one resource that were set in turn, and the handles it then holds. -/
structure Moved (l l' : LifecycleManager) (name : String) (path : List ResourceState)
    (handles : ℕ) : Prop where
  log : l'.log = l.log ++ path.map (name, ·)
  state : l'.state name = path.getLast?.getD (l.state name)
  handles : l'.leaked name = handles
  others : ∀ other ≠ name, l'.state other = l.state other ∧ l'.leaked other = l.leaked other

variable {dir name other : String} {w : Attempt} {s : ServerState} {l l' : LifecycleManager}
  {state : ResourceState} {path more : List ResourceState} {n k : ℕ} {r : Rest}

namespace LifecycleManager

theorem state_set (l : LifecycleManager) (name other : String) (state : ResourceState) :
    (l.set name state).state other = if other = name then state else l.state other := by
  rw [LifecycleManager.state, set, lookup_insert_ite]
  split
  · rfl
  · rfl

theorem leaked_release (l : LifecycleManager) (name other : String) :
    (l.releaseHandle name).leaked other =
      if other = name then l.leaked other - 1 else l.leaked other := by
  unfold releaseHandle
  split
  · rename_i c hlookup
    by_cases hc : 0 < c
    · rw [if_pos hc, leaked, leaked, lookup_insert_ite]
      by_cases hname : other = name
      · rw [if_pos hname, if_pos hname, hname, hlookup]
        rfl
      · rw [if_neg hname, if_neg hname]
    · rw [if_neg hc]
      split
      · rename_i hname
        have hzero : l.leaked other = 0 := by
          rw [leaked, hname, hlookup]
          exact Nat.eq_zero_of_not_pos hc
        rw [hzero]
      · rfl
  · rename_i hlookup
    split
    · rename_i hname
      rw [leaked, hname, hlookup]
      rfl
    · rfl

theorem release_kept (l : LifecycleManager) (name : String) :
    (l.releaseHandle name).states = l.states ∧ (l.releaseHandle name).log = l.log := by
  unfold releaseHandle
  split
  · split
    · exact ⟨rfl, rfl⟩
    · exact ⟨rfl, rfl⟩
  · exact ⟨rfl, rfl⟩

/-- A number of releases takes as many handles from the resource, as far as there are any. -/
theorem release_iterate (k : ℕ) (l : LifecycleManager) (name : String) :
    ((fun l ↦ releaseHandle l name)^[k] l).states = l.states ∧
      ((fun l ↦ releaseHandle l name)^[k] l).log = l.log ∧
      ∀ other, ((fun l ↦ releaseHandle l name)^[k] l).leaked other =
        if other = name then l.leaked other - k else l.leaked other := by
  induction k generalizing l with
  | zero => exact ⟨rfl, rfl, fun other ↦ (ite_self _).symm⟩
  | succ k ih =>
    obtain ⟨hstates, hlog, hleaked⟩ := ih (l.releaseHandle name)
    obtain ⟨hkept, hkeptlog⟩ := release_kept l name
    rw [Function.iterate_succ_apply]
    refine ⟨hstates.trans hkept, hlog.trans hkeptlog, fun other ↦ ?_⟩
    rw [hleaked, leaked_release]
    split
    · omega
    · rfl

theorem canStart_iff :
    l.canStart name = true ↔ l.state name = .stopped ∨ l.state name = .failed := by
  unfold canStart
  cases l.state name <;> simp

theorem markHealthy_of (h : l.state name = .healthChecking) :
    l.markHealthy name n =
      .ok { l.set name .healthy with handles := l.handles.insert name n } :=
  if_neg (not_not.mpr h)

end LifecycleManager

theorem Moved.refl (l : LifecycleManager) (name : String) : Moved l l name [] (l.leaked name) :=
  ⟨(List.append_nil _).symm, rfl, rfl, fun _ _ ↦ ⟨rfl, rfl⟩⟩

theorem Moved.set (h : Moved l l' name path n) (state : ResourceState) :
    Moved l (l'.set name state) name (path ++ [state]) n where
  log := by
    rw [LifecycleManager.set, List.map_append, ← List.append_assoc, ← h.log]
    rfl
  state := by
    rw [LifecycleManager.state_set, if_pos rfl, List.getLast?_concat]
    rfl
  handles := h.handles
  others other hother := by
    rw [LifecycleManager.state_set, if_neg hother]
    exact h.others other hother

theorem Moved.markHealthy (h : Moved l l' name path k) (n : ℕ) :
    Moved l { l'.set name .healthy with handles := l'.handles.insert name n } name
      (path ++ [.healthy]) n where
  log := (h.set .healthy).log
  state := (h.set .healthy).state
  handles := by
    rw [LifecycleManager.leaked, AList.lookup_insert]
    rfl
  others other hother := by
    refine ⟨((h.set .healthy).others other hother).1, ?_⟩
    rw [LifecycleManager.leaked, AList.lookup_insert_ne hother]
    exact (h.others other hother).2

variable (dir w) in
theorem start_moved (hcan : s.lifecycle.canStart name = true) :
    ∃ path, Moved s.lifecycle (transitionStart dir w s name).lifecycle name (.validating :: path)
        (match w.outcome name dir with
          | .ok n => n
          | .error _ => s.lifecycle.leaked name) ∧
      (.validating :: path).IsChain (fun a b ↦ b ∈ a.next) ∧
      (.validating :: path).getLast? = some (match w.outcome name dir with
        | .ok _ => .healthy
        | .error _ => .failed) := by
  have hfirst := (Moved.refl s.lifecycle name).set .validating
  have hsecond := hfirst.set .dependencyResolution
  have hthird := (hsecond.set .starting).set .scriptHostStarting
  have hfourth := (hthird.set .migrationsReady).set .healthChecking
  unfold transitionStart Attempt.outcome
  rw [hcan, Bool.not_true, if_neg Bool.false_ne_true]
  cases hload : loadManifest w.load name dir with
  | error e => exact ⟨[.failed], hfirst.set .failed, by decide, rfl⟩
  | ok manifest =>
    dsimp only [bind, Except.bind]
    cases hcheck : checkDependencies w.check manifest dir with
    | error e =>
      exact ⟨[.dependencyResolution, .failed], hsecond.set .failed, by decide, rfl⟩
    | ok u =>
      dsimp only
      cases hrun : startResourceScripts w.run name dir with
      | error e =>
        exact ⟨[.dependencyResolution, .starting, .scriptHostStarting, .failed],
          hthird.set .failed, by decide, rfl⟩
      | ok handles =>
        dsimp only
        cases hmigrations : manifest.databaseMigrations.isEmpty with
        | false =>
          exact ⟨[.dependencyResolution, .starting, .scriptHostStarting, .failed],
            hthird.set .failed, by decide, rfl⟩
        | true =>
          refine ⟨[.dependencyResolution, .starting, .scriptHostStarting, .migrationsReady,
            .healthChecking, .healthy], ?_, by decide, rfl⟩
          rw [Bool.not_true, if_neg Bool.false_ne_true, if_neg Bool.false_ne_true]
          have hchecking := hfourth.state
          rw [List.getLast?_concat] at hchecking
          simp only [ServerState.failPoint, LifecycleManager.markHealthy_of hchecking]
          exact hfourth.markHealthy handles

theorem stop_moved (k : ℕ) (s : ServerState) (name : String) :
    ∃ path, Moved s.lifecycle (stopReleasing k s name).lifecycle name (.stopping :: path)
        (s.lifecycle.leaked name - k) ∧
      path = if s.lifecycle.leaked name ≤ k then [.stopped] else [.failed] := by
  have hfirst := (Moved.refl s.lifecycle name).set .stopping
  obtain ⟨hstates, hlog, hleaked⟩ :=
    LifecycleManager.release_iterate k (s.lifecycle.set name .stopping) name
  have hreleased : Moved s.lifecycle ((fun l ↦ LifecycleManager.releaseHandle l name)^[k]
      (s.lifecycle.set name .stopping)) name [.stopping] (s.lifecycle.leaked name - k) := by
    refine ⟨hlog.trans hfirst.log, ?_, ?_, fun other hother ↦ ⟨?_, ?_⟩⟩
    · rw [LifecycleManager.state, hstates]
      exact hfirst.state
    · rw [hleaked, if_pos rfl, hfirst.handles]
    · rw [LifecycleManager.state, hstates]
      exact (hfirst.others other hother).1
    · rw [hleaked, if_neg hother]
      exact (hfirst.others other hother).2
  unfold stopReleasing ServerState.failPoint LifecycleManager.stop
  dsimp only
  rw [hreleased.handles]
  by_cases henough : s.lifecycle.leaked name ≤ k
  · rw [if_neg (by omega), if_pos henough]
    exact ⟨_, hreleased.set .stopped, rfl⟩
  · rw [if_pos (by omega), if_neg henough]
    exact ⟨_, hreleased.set .failed, rfl⟩

theorem history_moved (h : Moved l l' name path n) (other : String) :
    l'.history other = l.history other ++ if other = name then path else [] := by
  rw [LifecycleManager.history, LifecycleManager.history, h.log, List.filter_append,
    List.map_append]
  congr 1
  split
  · rename_i hname
    subst hname
    simp [List.filter_map, Function.comp_def]
  · rename_i hname
    simp [Ne.symm hname]

theorem At.moved {r' : Rest} (h : At l name r) (hm : Moved l l' name (state :: path) n)
    (hnext : state ∈ r.state.next)
    (hpath : (state :: path).IsChain (fun a b ↦ b ∈ a.next))
    (hlast : (state :: path).getLast? = some r'.state) (hn : n = r'.handles) : At l' name r' := by
  have hhistory := history_moved hm name
  rw [if_pos rfl] at hhistory
  refine ⟨?_, hm.handles.trans hn, ?_, ?_⟩
  · rw [hm.state, hlast]
    rfl
  · rw [hhistory, ← List.cons_append, List.isChain_append]
    refine ⟨h.path, hpath, fun a ha b hb ↦ ?_⟩
    rw [List.getLast?_eq_some_getLast (List.cons_ne_nil _ _), h.last] at ha
    cases ha
    cases hb
    exact hnext
  · have hsome : (.stopped :: l'.history name).getLast? = some r'.state := by
      rw [hhistory, ← List.cons_append, List.getLast?_append, hlast]
      rfl
    exact (List.getLast_eq_iff_getLast?_eq_some _).mpr hsome

theorem At.elsewhere (h : At l other r) (hm : Moved l l' name path n) (hother : other ≠ name) :
    At l' other r := by
  have hhistory := history_moved hm other
  rw [if_neg hother, List.append_nil] at hhistory
  obtain ⟨hstate, hleaked⟩ := hm.others other hother
  refine ⟨hstate.trans h.state, hleaked.trans h.handles, ?_, ?_⟩
  · rw [hhistory]
    exact h.path
  · simp only [hhistory]
    exact h.last

theorem start_rest (outcome : Except String ℕ) (h : r.state = .stopped ∨ r.state = .failed) :
    (r.start outcome).state = (match outcome with
        | .ok _ => .healthy
        | .error _ => .failed) ∧
      (r.start outcome).handles = match outcome with
        | .ok n => n
        | .error _ => r.handles := by
  cases r with
  | healthy n => simp [Rest.state] at h
  | stopped => cases outcome <;> exact ⟨rfl, rfl⟩
  | failed n => cases outcome <;> exact ⟨rfl, rfl⟩

theorem At.transitionStart (h : At s.lifecycle name r) (dir : String) (w : Attempt) :
    At (transitionStart dir w s name).lifecycle name (r.start (w.outcome name dir)) := by
  cases hcan : s.lifecycle.canStart name with
  | false =>
    have hsame : Supervision.transitionStart dir w s name = s := by
      rw [Supervision.transitionStart, hcan]
      rfl
    have hnot := LifecycleManager.canStart_iff.not.mp (Bool.eq_false_iff.mp hcan)
    rw [h.state] at hnot
    rw [hsame]
    cases r with
    | healthy n => exact h
    | stopped => exact absurd (.inl rfl) hnot
    | failed n => exact absurd (.inr rfl) hnot
  | true =>
    obtain ⟨path, hm, hpath, hlast⟩ := start_moved dir w hcan
    have hrest := LifecycleManager.canStart_iff.mp hcan
    rw [h.state] at hrest
    rw [h.handles] at hm
    obtain ⟨hstate, hhandles⟩ := start_rest (w.outcome name dir) hrest
    refine h.moved hm ?_ hpath (hlast.trans (congrArg some hstate.symm)) hhandles.symm
    rcases hrest with hrest | hrest <;> rw [hrest] <;> decide

theorem At.transitionStop (h : At s.lifecycle name r) :
    At (transitionStop s name).lifecycle name r.stop := by
  obtain ⟨path, hm, rfl⟩ := stop_moved releases s name
  rw [h.handles] at hm
  have hnext : ResourceState.stopping ∈ r.state.next := by
    cases r <;> simp [Rest.state, ResourceState.next]
  rw [Supervision.transitionStop]
  by_cases henough : r.handles ≤ releases
  · rw [if_pos henough] at hm
    rw [Rest.stop, if_pos henough]
    exact h.moved hm hnext (by decide) rfl (Nat.sub_eq_zero_of_le henough)
  · rw [if_neg henough] at hm
    rw [Rest.stop, if_neg henough]
    exact h.moved hm hnext (by decide) rfl (Rest.handles_failed _).symm

theorem At.step_elsewhere (h : At s.lifecycle other r) (hother : other ≠ name) (dir : String)
    (w : Attempt) :
    At (Supervision.transitionStart dir w s name).lifecycle other r ∧
      At (Supervision.transitionStop s name).lifecycle other r := by
  constructor
  · cases hcan : s.lifecycle.canStart name with
    | false =>
      have hsame : Supervision.transitionStart dir w s name = s := by
        rw [Supervision.transitionStart, hcan]
        rfl
      rw [hsame]
      exact h
    | true =>
      obtain ⟨path, hm, -⟩ := start_moved dir w hcan
      exact h.elsewhere hm hother
  · rw [Supervision.transitionStop]
    obtain ⟨path, hm, -⟩ := stop_moved releases s name
    exact h.elsewhere hm hother

theorem At.step (h : At s.lifecycle name r) (dir : String) (input : Received) :
    At (step dir s input).1.lifecycle name (r.after dir name input) := by
  obtain ⟨command, shutdown, w⟩ := input
  unfold Supervision.step Rest.after
  cases shutdown with
  | true => simpa using h
  | false =>
    simp only [Bool.false_eq_true, if_false, false_or]
    by_cases hname : command.name = name
    · rw [if_neg (not_not.mpr hname)]
      cases command with
      | start n =>
        obtain rfl : n = name := hname
        exact h.transitionStart dir w
      | stop n =>
        obtain rfl : n = name := hname
        exact h.transitionStop
      | restart n =>
        obtain rfl : n = name := hname
        exact h.transitionStop.transitionStart dir w
      | reload n =>
        obtain rfl : n = name := hname
        exact h.transitionStop.transitionStart dir w
    · rw [if_pos hname]
      have hother : name ≠ command.name := Ne.symm hname
      cases command with
      | start n => exact (h.step_elsewhere hother dir w).1
      | stop n => exact (h.step_elsewhere hother dir w).2
      | restart n => exact ((h.step_elsewhere hother dir w).2.step_elsewhere hother dir w).1
      | reload n => exact ((h.step_elsewhere hother dir w).2.step_elsewhere hother dir w).1

/-- After any commands a resource is where the commands for it have brought it from being stopped,
whatever was done to the others, and those that came during a shutdown were ignored. It came there
through the stages in their order, so it never served before it was checked. -/
theorem supervised (dir : String) (inputs : List Received) (name : String) :
    At (run (step dir) .new inputs).lifecycle name
      (inputs.foldl (fun r input ↦ r.after dir name input) .stopped) := by
  induction inputs using List.reverseRecOn with
  | nil => exact ⟨rfl, rfl, List.isChain_singleton _, rfl⟩
  | append_singleton inputs input ih =>
    rw [run_concat, List.foldl_concat]
    exact ih.step dir input

end Aldivine.Resources.Supervision
