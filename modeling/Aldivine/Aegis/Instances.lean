import Aldivine.Foundation.Execution
import Aldivine.Foundation.Machine

namespace Aldivine.Aegis.Instances

open Foundation.Execution Foundation.Machine

/-- The reason for a quarantine is a text about the number of crashes. -/
inductive ProcessState
  | stopped
  | starting
  | running (pid : BitVec 32) (startedAtMs : BitVec 64)
  | stopping
  | crashed (exitCode : Option (BitVec 32)) (retriesLeft : BitVec 32)
  | quarantined (crashes : BitVec 32)
deriving DecidableEq

structure InstanceConfig where
  instanceId : String
  binaryPath : String
  configPath : String
  autoRestart : Bool
  maxCrashRetries : BitVec 32
  watchdogTimeoutMs : BitVec 64
  activeBuildId : String
deriving DecidableEq

inductive SupervisorError
  | alreadyRunning (instanceId : String)
  | noRollbackAvailable (instanceId : String)
deriving DecidableEq

inductive LogLine
  | started (instanceId : String) (pid : BitVec 32)
  | stopped (instanceId : String) (pid : BitVec 32)
  | stoppedBeforeRunning (instanceId : String)
  | watchdogTimeout (instanceId : String) (pid : BitVec 32)
  | crashed (instanceId : String) (exitCode : Option (BitVec 32))
  | quarantined (crashes : BitVec 32)
  | updated (activeBuildId : String) (previous : Option String)
  | rollingBack (activeBuildId previous : String)
deriving DecidableEq

structure InstanceSupervisor where
  config : InstanceConfig
  state : ProcessState
  lastHeartbeatMs : BitVec 64
  previousKnownGoodBuild : Option String
  crashCountInWindow : BitVec 32
  logBuffer : List LogLine
  maxLogLines : ℕ
  simulatedPidCounter : BitVec 32
deriving DecidableEq

def ProcessState.isUp : ProcessState → Bool
  | .running _ _ => true
  | .starting => true
  | _ => false

namespace InstanceSupervisor

def new (config : InstanceConfig) (maxLogLines : ℕ) : InstanceSupervisor :=
  ⟨config, .stopped, 0, none, 0, [], maxLogLines, 1000⟩

/-- `remove(0)` of an empty buffer panics. -/
def appendLog (s : InstanceSupervisor) (line : LogLine) : Option InstanceSupervisor :=
  if s.maxLogLines ≤ s.logBuffer.length then
    match s.logBuffer with
    | [] => none
    | _ :: rest => some { s with logBuffer := rest ++ [line] }
  else some { s with logBuffer := s.logBuffer ++ [line] }

def start (mode : Overflow) (s : InstanceSupervisor) (nowMs : BitVec 64) :
    Option (InstanceSupervisor × Except SupervisorError Unit) :=
  if s.state.isUp then some (s, .error (.alreadyRunning s.config.instanceId))
  else do
    let pid ← mode.add s.simulatedPidCounter 1
    let s := { s with
      simulatedPidCounter := pid, state := .running pid nowMs, lastHeartbeatMs := nowMs }
    let s ← s.appendLog (.started s.config.instanceId pid)
    return (s, .ok ())

def stop (s : InstanceSupervisor) : Option InstanceSupervisor :=
  match s.state with
  | .running pid _ => { s with state := .stopped }.appendLog (.stopped s.config.instanceId pid)
  | .starting => { s with state := .stopped }.appendLog (.stoppedBeforeRunning s.config.instanceId)
  | _ => some s

def restart (mode : Overflow) (s : InstanceSupervisor) (nowMs : BitVec 64) :
    Option (InstanceSupervisor × Except SupervisorError Unit) := do
  let s ← s.stop
  s.start mode nowMs

def recordHeartbeat (s : InstanceSupervisor) (nowMs : BitVec 64) : InstanceSupervisor :=
  { s with lastHeartbeatMs := nowMs }

/-- The subtraction saturates. -/
def timedOut (s : InstanceSupervisor) (nowMs : BitVec 64) : Bool :=
  decide (s.config.watchdogTimeoutMs.toNat < nowMs.toNat - s.lastHeartbeatMs.toNat)

def pollWatchdog (mode : Overflow) (s : InstanceSupervisor) (nowMs : BitVec 64) :
    Option (InstanceSupervisor × Bool) :=
  match s.state with
  | .running pid _ =>
    if s.timedOut nowMs then do
      let s ← s.appendLog (.watchdogTimeout s.config.instanceId pid)
      let (s, _) ← s.restart mode nowMs
      return (s, true)
    else some (s, false)
  | _ => some (s, false)

def handleCrash (mode : Overflow) (s : InstanceSupervisor) (exitCode : Option (BitVec 32))
    (nowMs : BitVec 64) : Option InstanceSupervisor := do
  let crashes ← mode.add s.crashCountInWindow 1
  let s := { s with crashCountInWindow := crashes }
  let s ← s.appendLog (.crashed s.config.instanceId exitCode)
  if s.config.maxCrashRetries ≤ s.crashCountInWindow then
    let s := { s with state := .quarantined s.crashCountInWindow }
    s.appendLog (.quarantined s.crashCountInWindow)
  else if s.config.autoRestart then
    let retriesLeft := s.config.maxCrashRetries - s.crashCountInWindow
    let s := { s with state := .crashed exitCode retriesLeft }
    let (s, _) ← s.restart mode nowMs
    return s
  else some { s with state := .crashed exitCode 0 }

def updateBuild (s : InstanceSupervisor) (newBuildId : String) : Option InstanceSupervisor :=
  let s := { s with
    previousKnownGoodBuild := some s.config.activeBuildId
    config := { s.config with activeBuildId := newBuildId } }
  s.appendLog (.updated s.config.activeBuildId s.previousKnownGoodBuild)

def rollback (mode : Overflow) (s : InstanceSupervisor) (nowMs : BitVec 64) :
    Option (InstanceSupervisor × Except SupervisorError Unit) :=
  match s.previousKnownGoodBuild with
  | none => some (s, .error (.noRollbackAvailable s.config.instanceId))
  | some prev => do
    let s ← s.appendLog (.rollingBack s.config.activeBuildId prev)
    let s := { s with
      config := { s.config with activeBuildId := prev }
      previousKnownGoodBuild := none
      crashCountInWindow := 0 }
    s.restart mode nowMs

end InstanceSupervisor

inductive Call
  | start (nowMs : BitVec 64)
  | stop
  | restart (nowMs : BitVec 64)
  | recordHeartbeat (nowMs : BitVec 64)
  | pollWatchdog (nowMs : BitVec 64)
  | handleCrash (exitCode : Option (BitVec 32)) (nowMs : BitVec 64)
  | updateBuild (newBuildId : String)
  | rollback (nowMs : BitVec 64)
deriving DecidableEq

inductive Answer
  | done
  | result (r : Except SupervisorError Unit)
  | triggered (b : Bool)
  | panicked

/-- What a call that panics leaves behind is not told. -/
def step (mode : Overflow) (s : InstanceSupervisor) (call : Call) : InstanceSupervisor × Answer :=
  let outcome : Option (InstanceSupervisor × Answer) :=
    match call with
    | .start nowMs => (s.start mode nowMs).map (fun x ↦ (x.1, .result x.2))
    | .stop => s.stop.map (fun s ↦ (s, .result (.ok ())))
    | .restart nowMs => (s.restart mode nowMs).map (fun x ↦ (x.1, .result x.2))
    | .recordHeartbeat nowMs => some (s.recordHeartbeat nowMs, .done)
    | .pollWatchdog nowMs => (s.pollWatchdog mode nowMs).map (fun x ↦ (x.1, .triggered x.2))
    | .handleCrash exitCode nowMs => (s.handleCrash mode exitCode nowMs).map (fun s ↦ (s, .done))
    | .updateBuild newBuildId => (s.updateBuild newBuildId).map (fun s ↦ (s, .done))
    | .rollback nowMs => (s.rollback mode nowMs).map (fun x ↦ (x.1, .result x.2))
  outcome.getD (s, .panicked)

section Logging

variable {mode : Overflow} {s : InstanceSupervisor} {nowMs : BitVec 64}

theorem appendLog_some (hlines : s.maxLogLines ≠ 0) (line : LogLine) :
    ∃ log, s.appendLog line = some { s with logBuffer := log } := by
  unfold InstanceSupervisor.appendLog
  split
  · rename_i hfull
    split
    · rename_i hempty
      rw [hempty] at hfull
      exact absurd (Nat.le_zero.mp hfull) hlines
    · exact ⟨_, rfl⟩
  · exact ⟨_, rfl⟩

theorem start_some (hlines : s.maxLogLines ≠ 0) (hdown : s.state.isUp = false)
    (hroom : s.simulatedPidCounter.toNat + 1 < 2 ^ 32) (nowMs : BitVec 64) :
    ∃ pid log, pid.toNat = s.simulatedPidCounter.toNat + 1 ∧
      s.start mode nowMs = some ({ s with
        simulatedPidCounter := pid, state := .running pid nowMs, lastHeartbeatMs := nowMs,
        logBuffer := log }, .ok ()) := by
  obtain ⟨pid, hpid, hnext⟩ := add_one_of_room mode hroom
  have hlog := @appendLog_some { s with
    simulatedPidCounter := pid, state := .running pid nowMs, lastHeartbeatMs := nowMs } hlines
      (.started s.config.instanceId pid)
  obtain ⟨log, hlog⟩ := hlog
  refine ⟨pid, log, hnext, ?_⟩
  simp only [InstanceSupervisor.start, hdown, Bool.false_eq_true, if_false, hpid,
    Option.bind_eq_bind, Option.bind_some, hlog, Option.pure_def]

theorem stop_some (hlines : s.state.isUp = true → s.maxLogLines ≠ 0) :
    ∃ log, s.stop = some { s with
      state := if s.state.isUp then .stopped else s.state, logBuffer := log } := by
  unfold InstanceSupervisor.stop
  cases hstate : s.state with
  | running pid startedAtMs =>
    rw [hstate] at hlines
    exact @appendLog_some { s with state := .stopped } (hlines rfl) _
  | starting =>
    rw [hstate] at hlines
    exact @appendLog_some { s with state := .stopped } (hlines rfl) _
  | _ =>
    cases s
    cases hstate
    exact ⟨_, rfl⟩

theorem restart_some (hlines : s.maxLogLines ≠ 0)
    (hroom : s.simulatedPidCounter.toNat + 1 < 2 ^ 32) (nowMs : BitVec 64) :
    ∃ pid log, pid.toNat = s.simulatedPidCounter.toNat + 1 ∧
      s.restart mode nowMs = some ({ s with
        simulatedPidCounter := pid, state := .running pid nowMs, lastHeartbeatMs := nowMs,
        logBuffer := log }, .ok ()) := by
  obtain ⟨log, hstop⟩ := @stop_some s (fun _ ↦ hlines)
  have hdown : (if s.state.isUp then ProcessState.stopped else s.state).isUp = false := by
    split
    · rfl
    · rename_i hdown
      exact Bool.not_eq_true _ ▸ hdown
  obtain ⟨pid, log', hnext, hstart⟩ := @start_some mode { s with
    state := if s.state.isUp then .stopped else s.state, logBuffer := log } hlines hdown hroom nowMs
  refine ⟨pid, log', hnext, ?_⟩
  simp only [InstanceSupervisor.restart, hstop, Option.bind_eq_bind, Option.bind_some, hstart]

end Logging

end Aldivine.Aegis.Instances
