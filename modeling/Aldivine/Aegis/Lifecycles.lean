import Aldivine.Aegis.Instances

namespace Aldivine.Aegis.Lifecycles

open Foundation.Execution Foundation.Machine Instances

abbrev Event := Call × Answer

def isCrash : Call → Bool
  | .handleCrash _ _ => true
  | _ => false

def isRollback : Call → Bool
  | .rollback _ => true
  | _ => false

def isManual : Call → Bool
  | .start _ => true
  | .restart _ => true
  | .rollback _ => true
  | _ => false

def started : Event → Bool
  | (call, .result (.ok ())) => isManual call
  | _ => false

def rolledBack (x : Event) : Bool := isRollback x.1 && started x

def expired (s : InstanceSupervisor) (nowMs : BitVec 64) : Bool :=
  match s.state with
  | .running _ _ => s.timedOut nowMs
  | _ => false

def Starts (s : InstanceSupervisor) : Call → Prop
  | .start _ => s.state.isUp = false
  | .restart _ => True
  | .pollWatchdog nowMs => expired s nowMs = true
  | .handleCrash _ _ => s.config.autoRestart = true ∧
    s.crashCountInWindow.toNat + 1 < s.config.maxCrashRetries.toNat
  | .rollback _ => s.previousKnownGoodBuild.isSome
  | _ => False

def Writes (s : InstanceSupervisor) : Call → Prop
  | .stop => s.state.isUp = true
  | .handleCrash _ _ => True
  | .updateBuild _ => True
  | call => Starts s call

def halting : Event → Option Bool
  | (.stop, _) => some true
  | x => if started x then some false else none

/-- The log has lines, the counters have room, no crash of an instance that was stopped is reported
late, and a second rollback has crashes to forgive. -/
structure Safe (s : InstanceSupervisor) (h : List Event) (call : Call) : Prop where
  lines : Writes s call → s.maxLogLines ≠ 0
  pids : Starts s call → s.simulatedPidCounter.toNat + 1 < 2 ^ 32
  crashes : isCrash call = true → s.crashCountInWindow.toNat + 1 < 2 ^ 32
  late : latest halting h = some true → isCrash call = true → ¬Starts s call
  retries : (∃ x ∈ h, rolledBack x = true) → isRollback call = true → Starts s call →
    s.config.maxCrashRetries ≠ 0

section Steps

variable {mode : Overflow} {s s' : InstanceSupervisor} {h : List Event} {call : Call}
  {answer : Answer} {nowMs : BitVec 64}

def crashesAfter (s : InstanceSupervisor) : Call → ℕ
  | .handleCrash _ _ => s.crashCountInWindow.toNat + 1
  | .rollback _ => 0
  | _ => s.crashCountInWindow.toNat

inductive Move (s : InstanceSupervisor) (call : Call) (s' : InstanceSupervisor) (answer : Answer) :
    Prop
  | began (nowMs : BitVec 64) (hstarts : Starts s call)
    (hstate : s'.state = .running s'.simulatedPidCounter nowMs)
    (hpid : s'.simulatedPidCounter.toNat = s.simulatedPidCounter.toNat + 1)
    (hcrashes : s'.crashCountInWindow.toNat = crashesAfter s call)
    (hanswer : started (call, answer) = isManual call)
  | quarantined (hcall : isCrash call = true)
    (hover : s.config.maxCrashRetries.toNat ≤ s.crashCountInWindow.toNat + 1)
    (hstate : s'.state = .quarantined s'.crashCountInWindow)
    (hpid : s'.simulatedPidCounter = s.simulatedPidCounter)
    (hcrashes : s'.crashCountInWindow.toNat = s.crashCountInWindow.toNat + 1)
  | crashed (exitCode : Option (BitVec 32)) (hcall : isCrash call = true)
    (hunder : s.crashCountInWindow.toNat + 1 < s.config.maxCrashRetries.toNat)
    (hstate : s'.state = .crashed exitCode 0)
    (hpid : s'.simulatedPidCounter = s.simulatedPidCounter)
    (hcrashes : s'.crashCountInWindow.toNat = s.crashCountInWindow.toNat + 1)
  | stopped (hcall : call = .stop)
    (hstate : s'.state = if s.state.isUp then .stopped else s.state)
    (hpid : s'.simulatedPidCounter = s.simulatedPidCounter)
    (hcrashes : s'.crashCountInWindow = s.crashCountInWindow)
  | kept (hcall : isCrash call = false) (hstop : call ≠ .stop) (hnot : ¬Starts s call)
    (hstate : s'.state = s.state) (hpid : s'.simulatedPidCounter = s.simulatedPidCounter)
    (hcrashes : s'.crashCountInWindow = s.crashCountInWindow)
    (hanswer : started (call, answer) = false)

/-- The call returned, and moved the process within what its configuration allows. -/
structure Done (s : InstanceSupervisor) (call : Call) (x : InstanceSupervisor × Answer) : Prop where
  returned : x.2 ≠ .panicked
  maxCrashRetries : x.1.config.maxCrashRetries = s.config.maxCrashRetries
  move : Move s call x.1 x.2

theorem start_done (hsafe : Safe s h (.start nowMs)) :
    Done s (.start nowMs) (step mode s (.start nowMs)) := by
  cases hup : s.state.isUp with
  | true =>
    have hstep : step mode s (.start nowMs) =
        (s, .result (.error (.alreadyRunning s.config.instanceId))) := by
      simp only [step, InstanceSupervisor.start, hup, if_true, Option.map_some, Option.getD_some]
    have hnot : ¬Starts s (.start nowMs) := by
      rw [Starts, hup]
      exact Bool.noConfusion
    rw [hstep]
    exact ⟨Answer.noConfusion, rfl, .kept rfl Call.noConfusion hnot rfl rfl rfl rfl⟩
  | false =>
    obtain ⟨pid, log, hnext, hstart⟩ :=
      @start_some mode s (hsafe.lines hup) hup (hsafe.pids hup) nowMs
    simp only [step, hstart, Option.map_some, Option.getD_some]
    exact ⟨Answer.noConfusion, rfl, .began nowMs hup rfl hnext rfl rfl⟩

theorem stop_done (hsafe : Safe s h .stop) : Done s .stop (step mode s .stop) := by
  obtain ⟨log, hstop⟩ := stop_some hsafe.lines
  simp only [step, hstop, Option.map_some, Option.getD_some]
  exact ⟨Answer.noConfusion, rfl, .stopped rfl rfl rfl rfl⟩

theorem restart_done (hsafe : Safe s h (.restart nowMs)) :
    Done s (.restart nowMs) (step mode s (.restart nowMs)) := by
  obtain ⟨pid, log, hnext, hrestart⟩ :=
    @restart_some mode s (hsafe.lines trivial) (hsafe.pids trivial) nowMs
  simp only [step, hrestart, Option.map_some, Option.getD_some]
  exact ⟨Answer.noConfusion, rfl, .began nowMs trivial rfl hnext rfl rfl⟩

theorem pollWatchdog_done (hsafe : Safe s h (.pollWatchdog nowMs)) :
    Done s (.pollWatchdog nowMs) (step mode s (.pollWatchdog nowMs)) := by
  cases hexpired : expired s nowMs with
  | false =>
    have hpoll : s.pollWatchdog mode nowMs = some (s, false) := by
      unfold InstanceSupervisor.pollWatchdog
      unfold expired at hexpired
      split
      · rename_i hstate
        rw [hstate] at hexpired
        change s.timedOut nowMs = false at hexpired
        exact if_neg (by rw [hexpired]; exact Bool.false_ne_true)
      · rfl
    have hnot : ¬Starts s (.pollWatchdog nowMs) := by
      rw [Starts, hexpired]
      exact Bool.noConfusion
    simp only [step, hpoll, Option.map_some, Option.getD_some]
    exact ⟨Answer.noConfusion, rfl, .kept rfl Call.noConfusion hnot rfl rfl rfl rfl⟩
  | true =>
    obtain ⟨pid, hpoll⟩ : ∃ pid, s.pollWatchdog mode nowMs =
        (s.appendLog (.watchdogTimeout s.config.instanceId pid)).bind fun s ↦
          (s.restart mode nowMs).bind fun x ↦ some (x.1, true) := by
      unfold expired at hexpired
      split at hexpired
      · rename_i pid startedAtMs hstate
        refine ⟨pid, ?_⟩
        unfold InstanceSupervisor.pollWatchdog
        simp only [hstate]
        exact if_pos hexpired
      · cases hexpired
    have hlines := hsafe.lines hexpired
    obtain ⟨log, hlog⟩ := @appendLog_some s hlines (.watchdogTimeout s.config.instanceId pid)
    obtain ⟨next, log', hnext, hrestart⟩ :=
      @restart_some mode { s with logBuffer := log } hlines (hsafe.pids hexpired) nowMs
    simp only [step, hpoll, hlog, Option.bind_some, hrestart, Option.map_some, Option.getD_some]
    exact ⟨Answer.noConfusion, rfl, .began nowMs hexpired rfl hnext rfl rfl⟩

theorem handleCrash_done {exitCode : Option (BitVec 32)}
    (hsafe : Safe s h (.handleCrash exitCode nowMs)) :
    Done s (.handleCrash exitCode nowMs) (step mode s (.handleCrash exitCode nowMs)) := by
  have hlines := hsafe.lines trivial
  obtain ⟨crashes, hadd, hcrashes⟩ := add_one_of_room mode (hsafe.crashes rfl)
  obtain ⟨log, hlog⟩ := @appendLog_some { s with crashCountInWindow := crashes } hlines
    (.crashed s.config.instanceId exitCode)
  by_cases hover : s.config.maxCrashRetries ≤ crashes
  · obtain ⟨log', hlog'⟩ := @appendLog_some { s with
      crashCountInWindow := crashes, logBuffer := log, state := .quarantined crashes } hlines
        (.quarantined crashes)
    simp only [step, InstanceSupervisor.handleCrash, hadd, Option.bind_eq_bind, Option.bind_some,
      hlog, hover, if_true, hlog', Option.map_some, Option.getD_some]
    rw [BitVec.le_def, hcrashes] at hover
    exact ⟨Answer.noConfusion, rfl, .quarantined rfl hover rfl rfl hcrashes⟩
  · have hunder : s.crashCountInWindow.toNat + 1 < s.config.maxCrashRetries.toNat := by
      rw [← hcrashes]
      exact Nat.lt_of_not_le hover
    cases hauto : s.config.autoRestart with
    | true =>
      have hstarts : Starts s (.handleCrash exitCode nowMs) := ⟨hauto, hunder⟩
      obtain ⟨pid, log', hnext, hrestart⟩ := @restart_some mode { s with
        crashCountInWindow := crashes, logBuffer := log,
        state := .crashed exitCode (s.config.maxCrashRetries - crashes) } hlines
          (hsafe.pids hstarts) nowMs
      simp only [step, InstanceSupervisor.handleCrash, hadd, Option.bind_eq_bind, Option.bind_some,
        hlog, hover, if_false, hauto, if_true, hrestart, Option.pure_def, Option.map_some,
        Option.getD_some]
      exact ⟨Answer.noConfusion, rfl, .began nowMs hstarts rfl hnext hcrashes rfl⟩
    | false =>
      simp only [step, InstanceSupervisor.handleCrash, hadd, Option.bind_eq_bind, Option.bind_some,
        hlog, hover, if_false, hauto, Bool.false_eq_true, Option.map_some, Option.getD_some]
      exact ⟨Answer.noConfusion, rfl, .crashed exitCode rfl hunder rfl rfl hcrashes⟩

theorem updateBuild_done {newBuildId : String} (hsafe : Safe s h (.updateBuild newBuildId)) :
    Done s (.updateBuild newBuildId) (step mode s (.updateBuild newBuildId)) := by
  obtain ⟨log, hlog⟩ := @appendLog_some { s with
    previousKnownGoodBuild := some s.config.activeBuildId
    config := { s.config with activeBuildId := newBuildId } } (hsafe.lines trivial)
      (.updated newBuildId (some s.config.activeBuildId))
  simp only [step, InstanceSupervisor.updateBuild, hlog, Option.map_some, Option.getD_some]
  exact ⟨Answer.noConfusion, rfl, .kept rfl Call.noConfusion id rfl rfl rfl rfl⟩

theorem rollback_done (hsafe : Safe s h (.rollback nowMs)) :
    Done s (.rollback nowMs) (step mode s (.rollback nowMs)) := by
  cases hprev : s.previousKnownGoodBuild with
  | none =>
    have hstep : step mode s (.rollback nowMs) =
        (s, .result (.error (.noRollbackAvailable s.config.instanceId))) := by
      simp only [step, InstanceSupervisor.rollback, hprev, Option.map_some, Option.getD_some]
    have hnot : ¬Starts s (.rollback nowMs) := by
      rw [Starts, hprev]
      exact Bool.noConfusion
    rw [hstep]
    exact ⟨Answer.noConfusion, rfl, .kept rfl Call.noConfusion hnot rfl rfl rfl rfl⟩
  | some prev =>
    have hstarts : Starts s (.rollback nowMs) := Option.isSome_of_mem hprev
    have hlines := hsafe.lines hstarts
    obtain ⟨log, hlog⟩ := @appendLog_some s hlines (.rollingBack s.config.activeBuildId prev)
    obtain ⟨pid, log', hnext, hrestart⟩ := @restart_some mode { s with
      logBuffer := log, config := { s.config with activeBuildId := prev },
      previousKnownGoodBuild := none, crashCountInWindow := 0 } hlines (hsafe.pids hstarts) nowMs
    simp only [step, InstanceSupervisor.rollback, hprev, Option.bind_eq_bind, hlog,
      Option.bind_some, hrestart, Option.map_some, Option.getD_some]
    exact ⟨Answer.noConfusion, rfl, .began nowMs hstarts rfl hnext rfl rfl⟩

theorem step_done (mode : Overflow) (hsafe : Safe s h call) : Done s call (step mode s call) := by
  cases call with
  | start nowMs => exact start_done hsafe
  | stop => exact stop_done hsafe
  | restart nowMs => exact restart_done hsafe
  | recordHeartbeat nowMs =>
    exact ⟨Answer.noConfusion, rfl, .kept rfl Call.noConfusion id rfl rfl rfl rfl⟩
  | pollWatchdog nowMs => exact pollWatchdog_done hsafe
  | handleCrash exitCode nowMs => exact handleCrash_done hsafe
  | updateBuild newBuildId => exact updateBuild_done hsafe
  | rollback nowMs => exact rollback_done hsafe

end Steps

section Invariants

variable {config : InstanceConfig} {mode : Overflow} {s s' : InstanceSupervisor} {h : List Event}
  {call : Call} {answer : Answer}

/-- The pid is the newest, a quarantine has its reason, and an instance that was stopped is down. -/
structure Steady (config : InstanceConfig) (s : InstanceSupervisor) (h : List Event) : Prop where
  retries : s.config.maxCrashRetries = config.maxCrashRetries
  newest : ∀ pid startedAtMs, s.state = .running pid startedAtMs →
    pid.toNat ≤ s.simulatedPidCounter.toNat
  quarantined : ∀ n, s.state = .quarantined n →
    s.config.maxCrashRetries.toNat ≤ s.crashCountInWindow.toNat
  halted : latest halting h = some true → s.state.isUp = false

theorem steady_new (lines : ℕ) : Steady config (.new config lines) [] := by
  refine ⟨rfl, fun pid startedAtMs hrunning ↦ ?_, fun n hquarantined ↦ ?_, fun _ ↦ rfl⟩
  · cases hrunning
  · cases hquarantined

theorem halting_of_ne (hstop : call ≠ .stop) (answer : Answer) :
    halting (call, answer) = if started (call, answer) then some false else none := by
  cases call with
  | stop => exact absurd rfl hstop
  | _ => rfl

theorem Steady.not_halted (hs : Steady config s h) (hsafe : Safe s h call)
    (hstarts : Starts s call) (hmanual : isManual call = false) :
    latest halting h ≠ some true := by
  intro hhalted
  have hdown := hs.halted hhalted
  cases call with
  | pollWatchdog nowMs =>
    change expired s nowMs = true at hstarts
    unfold expired at hstarts
    split at hstarts
    · rename_i hstate
      rw [hstate] at hdown
      cases hdown
    · cases hstarts
  | handleCrash exitCode nowMs => exact hsafe.late hhalted rfl hstarts
  | start nowMs => cases hmanual
  | restart nowMs => cases hmanual
  | rollback nowMs => cases hmanual
  | stop => exact hstarts
  | recordHeartbeat nowMs => exact hstarts
  | updateBuild newBuildId => exact hstarts

theorem Steady.began {nowMs : BitVec 64} (hs : Steady config s h) (hsafe : Safe s h call)
    (hretries : s'.config.maxCrashRetries = s.config.maxCrashRetries) (hstarts : Starts s call)
    (hstate : s'.state = .running s'.simulatedPidCounter nowMs)
    (hanswer : started (call, answer) = isManual call) :
    Steady config s' (h ++ [(call, answer)]) where
  retries := hretries.trans hs.retries
  newest pid startedAtMs hrunning := by
    rw [hstate] at hrunning
    cases hrunning
    exact Nat.le_refl _
  quarantined n hquarantined := by
    rw [hstate] at hquarantined
    cases hquarantined
  halted hhalted := by
    have hstop : call ≠ .stop := by
      rintro rfl
      exact hstarts
    rw [latest_concat, halting_of_ne hstop, hanswer] at hhalted
    cases hmanual : isManual call with
    | true =>
      rw [hmanual] at hhalted
      cases hhalted
    | false =>
      rw [hmanual] at hhalted
      exact absurd hhalted (hs.not_halted hsafe hstarts hmanual)

/-- The instance is down behind the call. -/
theorem Steady.fell (hs : Steady config s h)
    (hretries : s'.config.maxCrashRetries = s.config.maxCrashRetries)
    (hdown : s'.state.isUp = false)
    (hover : ∀ n, s'.state = .quarantined n →
      s.config.maxCrashRetries.toNat ≤ s'.crashCountInWindow.toNat) :
    Steady config s' (h ++ [(call, answer)]) where
  retries := hretries.trans hs.retries
  newest pid startedAtMs hrunning := by
    rw [hrunning] at hdown
    cases hdown
  quarantined n hquarantined := by
    rw [hretries]
    exact hover n hquarantined
  halted _ := hdown

theorem Steady.stopped (hs : Steady config s h)
    (hretries : s'.config.maxCrashRetries = s.config.maxCrashRetries)
    (hstate : s'.state = if s.state.isUp then .stopped else s.state)
    (hcrashes : s'.crashCountInWindow = s.crashCountInWindow) :
    Steady config s' (h ++ [(call, answer)]) := by
  refine hs.fell hretries ?_ (fun n hquarantined ↦ ?_)
  · rw [hstate]
    split
    · rfl
    · rename_i hdown
      exact Bool.not_eq_true _ ▸ hdown
  · rw [hcrashes]
    rw [hstate] at hquarantined
    split at hquarantined
    · cases hquarantined
    · exact hs.quarantined n hquarantined

theorem Steady.kept (hs : Steady config s h)
    (hretries : s'.config.maxCrashRetries = s.config.maxCrashRetries) (hstop : call ≠ .stop)
    (hstate : s'.state = s.state) (hpid : s'.simulatedPidCounter = s.simulatedPidCounter)
    (hcrashes : s'.crashCountInWindow = s.crashCountInWindow)
    (hanswer : started (call, answer) = false) :
    Steady config s' (h ++ [(call, answer)]) where
  retries := hretries.trans hs.retries
  newest pid startedAtMs hrunning := by
    rw [hpid]
    exact hs.newest _ _ (hstate.symm.trans hrunning)
  quarantined n hquarantined := by
    rw [hretries, hcrashes]
    exact hs.quarantined _ (hstate.symm.trans hquarantined)
  halted hhalted := by
    rw [latest_concat, halting_of_ne hstop, hanswer] at hhalted
    rw [hstate]
    exact hs.halted hhalted

theorem Steady.step (hs : Steady config s h) (hsafe : Safe s h call) :
    Steady config (step mode s call).1 (h ++ [(call, (step mode s call).2)]) := by
  obtain ⟨-, hretries, hmove⟩ := step_done mode hsafe
  cases hmove with
  | began nowMs hstarts hstate _ _ hanswer => exact hs.began hsafe hretries hstarts hstate hanswer
  | quarantined _ hover hstate _ hcrashes =>
    refine hs.fell hretries (by rw [hstate]; rfl) (fun n _ ↦ ?_)
    rw [hcrashes]
    exact hover
  | crashed _ _ _ hstate =>
    refine hs.fell hretries (by rw [hstate]; rfl) (fun n hquarantined ↦ ?_)
    rw [hstate] at hquarantined
    cases hquarantined
  | stopped _ hstate _ hcrashes => exact hs.stopped hretries hstate hcrashes
  | kept _ hstop _ hstate hpid hcrashes hanswer =>
    exact hs.kept hretries hstop hstate hpid hcrashes hanswer

end Invariants

section Runs

variable (mode : Overflow) (config : InstanceConfig) (lines : ℕ)

def after (calls : List Call) : InstanceSupervisor := run (step mode) (.new config lines) calls

def history (calls : List Call) : List Event := answers (step mode) (.new config lines) calls

def answerTo (before : List Call) (call : Call) : Answer :=
  (step mode (after mode config lines before) call).2

def Down (before : List Call) : Prop :=
  (∃ b, before = b ++ [.stop]) ∨ ∃ n, (after mode config lines before).state = .quarantined n

def isRunning : ProcessState → Bool
  | .running _ _ => true
  | _ => false

def revived (x : InstanceSupervisor × Call) : Bool :=
  isCrash x.2 && isRunning (step mode x.1 x.2).1.state

structure Lifecycle (calls : List Call) : Prop where
  returns : ∀ before call, before ++ [call] <+: calls →
    answerTo mode config lines before call ≠ .panicked
  stays : ∀ before mid, before ++ mid <+: calls → Down mode config lines before →
    (∀ first call, first ++ [call] <+: mid →
      started (call, answerTo mode config lines (before ++ first) call) = false) →
    isRunning (after mode config lines (before ++ mid)).state = false
  retries : ∀ before first mid last, (before ++ [first]) ++ mid ++ [last] <+: calls →
    rolledBack (first, answerTo mode config lines before first) = true →
    rolledBack (last, answerTo mode config lines (before ++ [first] ++ mid) last) = true →
    (∀ m call, m ++ [call] <+: mid →
      rolledBack (call, answerTo mode config lines (before ++ [first] ++ m) call) = false) →
    (trace (step mode) (after mode config lines (before ++ [first])) mid).countP (revived mode) <
      config.maxCrashRetries.toNat
  pids : ∀ before call, before ++ [call] <+: calls → ∀ pid startedAtMs,
    (after mode config lines (before ++ [call])).state = .running pid startedAtMs →
    (¬Starts (after mode config lines before) call →
      (after mode config lines before).state = .running pid startedAtMs) ∧
    (Starts (after mode config lines before) call → ∀ earlier pid' startedAtMs',
      earlier <+: before →
      (after mode config lines earlier).state = .running pid' startedAtMs' →
      pid'.toNat < pid.toNat)

variable {mode config lines} {calls before mid : List Call} {call : Call}

theorem after_concat : after mode config lines (before ++ [call]) =
    (step mode (after mode config lines before) call).1 :=
  run_concat _ _

theorem history_concat : history mode config lines (before ++ [call]) =
    history mode config lines before ++ [(call, answerTo mode config lines before call)] :=
  answers_concat _ _

def AllSafe (mode : Overflow) (config : InstanceConfig) (lines : ℕ) (calls : List Call) : Prop :=
  Throughout (step mode) (.new config lines) Safe calls

theorem steady_run (hsafe : AllSafe mode config lines calls) :
    Steady config (after mode config lines calls) (history mode config lines calls) :=
  invariant_throughout (fun _ _ _ hs hsafe ↦ hs.step hsafe) (steady_new lines) calls hsafe

theorem done_at (hsafe : AllSafe mode config lines calls) (hpre : before ++ [call] <+: calls) :
    Steady config (after mode config lines before) (history mode config lines before) ∧
      Safe (after mode config lines before) (history mode config lines before) call ∧
      Done (after mode config lines before) call
        (step mode (after mode config lines before) call) := by
  have hnow := hsafe before call hpre
  exact ⟨steady_run (hsafe.before ((List.prefix_append _ _).trans hpre)), hnow,
    step_done mode hnow⟩

theorem stays_halted
    (hhalted : latest halting (history mode config lines before) = some true)
    (hquiet : ∀ first call, first ++ [call] <+: mid →
      started (call, answerTo mode config lines (before ++ first) call) = false) :
    latest halting (history mode config lines (before ++ mid)) = some true := by
  induction mid using List.reverseRecOn with
  | nil => rwa [List.append_nil]
  | append_singleton mid call ih =>
    rw [← List.append_assoc]
    have hbefore := ih
      (fun first call hfirst ↦ hquiet first call (hfirst.trans (List.prefix_append _ _)))
    rw [history_concat, latest_concat, hbefore]
    by_cases hstop : call = .stop
    · rw [hstop]
      rfl
    · rw [halting_of_ne hstop, hquiet mid call List.prefix_rfl]
      rfl

theorem stays_quarantined (hsafe : AllSafe mode config lines calls)
    (hpre : before ++ mid <+: calls)
    (hquarantined : ∃ n, (after mode config lines before).state = .quarantined n)
    (hquiet : ∀ first call, first ++ [call] <+: mid →
      started (call, answerTo mode config lines (before ++ first) call) = false) :
    ∃ n, (after mode config lines (before ++ mid)).state = .quarantined n := by
  induction mid using List.reverseRecOn with
  | nil => rwa [List.append_nil]
  | append_singleton mid call ih =>
    rw [← List.append_assoc] at hpre ⊢
    obtain ⟨n, hstate⟩ := ih ((List.prefix_append _ _).trans hpre)
      (fun first call hfirst ↦ hquiet first call (hfirst.trans (List.prefix_append _ _)))
    have hnot := hquiet mid call List.prefix_rfl
    obtain ⟨hsteady, -, -, -, hmove⟩ := done_at hsafe hpre
    have hover := hsteady.quarantined n hstate
    rw [after_concat]
    cases hmove with
    | began nowMs hstarts _ _ _ hanswer =>
      change started (call, answerTo _ _ _ _ _) = _ at hanswer
      rw [hnot] at hanswer
      cases call with
      | pollWatchdog nowMs =>
        rw [Starts, expired, hstate] at hstarts
        cases hstarts
      | handleCrash exitCode nowMs => exact absurd hstarts.2 (by omega)
      | start nowMs => cases hanswer
      | restart nowMs => cases hanswer
      | rollback nowMs => cases hanswer
      | stop => exact hstarts.elim
      | recordHeartbeat nowMs => exact hstarts.elim
      | updateBuild newBuildId => exact hstarts.elim
    | quarantined _ _ hstate' => exact ⟨_, hstate'⟩
    | crashed _ _ hunder => omega
    | stopped _ hstate' =>
      rw [hstate] at hstate'
      exact ⟨n, hstate'⟩
    | kept _ _ _ hstate' => exact ⟨n, hstate'.trans hstate⟩

theorem pids_grow (hsafe : AllSafe mode config lines calls) (hpre : before <+: calls)
    {earlier : List Call} (hearlier : earlier <+: before) :
    (after mode config lines earlier).simulatedPidCounter.toNat ≤
      (after mode config lines before).simulatedPidCounter.toNat := by
  induction before using List.reverseRecOn with
  | nil =>
    rw [List.prefix_nil.mp hearlier]
  | append_singleton before call ih =>
    rcases List.prefix_concat_iff.mp hearlier with heq | hearlier
    · rw [heq]
    · have hbefore := ih ((List.prefix_append _ _).trans hpre) hearlier
      obtain ⟨-, -, -, -, hmove⟩ := done_at hsafe hpre
      rw [after_concat]
      cases hmove with
      | began _ _ _ hpid => omega
      | quarantined _ _ _ hpid => rwa [hpid]
      | crashed _ _ _ _ hpid => rwa [hpid]
      | stopped _ _ hpid => rwa [hpid]
      | kept _ _ _ _ hpid => rwa [hpid]

theorem pids_at (hsafe : AllSafe mode config lines calls) (hpre : before ++ [call] <+: calls)
    {pid : BitVec 32} {startedAtMs : BitVec 64}
    (hrunning : (after mode config lines (before ++ [call])).state = .running pid startedAtMs) :
    (¬Starts (after mode config lines before) call →
      (after mode config lines before).state = .running pid startedAtMs) ∧
    (Starts (after mode config lines before) call → ∀ earlier pid' startedAtMs',
      earlier <+: before →
      (after mode config lines earlier).state = .running pid' startedAtMs' →
      pid'.toNat < pid.toNat) := by
  obtain ⟨-, -, -, -, hmove⟩ := done_at hsafe hpre
  rw [after_concat] at hrunning
  have hbefore : before <+: calls := (List.prefix_append _ _).trans hpre
  cases hmove with
  | began nowMs hstarts hstate hpid =>
    rw [hstate] at hrunning
    cases hrunning
    refine ⟨fun hnot ↦ absurd hstarts hnot, fun _ earlier pid' startedAtMs' hearlier hrunning ↦ ?_⟩
    have hnewest := (steady_run (hsafe.before (hearlier.trans hbefore))).newest _ _ hrunning
    have hgrow := pids_grow hsafe hbefore hearlier
    omega
  | quarantined _ _ hstate =>
    rw [hstate] at hrunning
    cases hrunning
  | crashed _ _ _ hstate =>
    rw [hstate] at hrunning
    cases hrunning
  | stopped hcall hstate =>
    subst hcall
    rw [hstate] at hrunning
    split at hrunning
    · cases hrunning
    · exact ⟨fun _ ↦ hrunning, False.elim⟩
  | kept _ _ hnot hstate =>
    exact ⟨fun _ ↦ hstate.symm.trans hrunning, fun hstarts ↦ absurd hstarts hnot⟩

theorem step_revived {s : InstanceSupervisor} {h : List Event} (hsafe : Safe s h call)
    (hquiet : rolledBack (call, (step mode s call).2) = false) :
    (revived mode (s, call) = false ∧
      s.crashCountInWindow.toNat ≤ (step mode s call).1.crashCountInWindow.toNat) ∨
    (revived mode (s, call) = true ∧
      (step mode s call).1.crashCountInWindow.toNat = s.crashCountInWindow.toNat + 1 ∧
      s.crashCountInWindow.toNat + 1 < s.config.maxCrashRetries.toNat) := by
  obtain ⟨-, -, hmove⟩ := step_done mode hsafe
  unfold revived
  cases hmove with
  | began nowMs hstarts hstate _ hcrashes hanswer =>
    rw [hcrashes, hstate]
    cases call with
    | handleCrash exitCode nowMs => exact .inr ⟨rfl, rfl, hstarts.2⟩
    | rollback nowMs =>
      rw [rolledBack, hanswer] at hquiet
      cases hquiet
    | start nowMs => exact .inl ⟨rfl, Nat.le_refl _⟩
    | restart nowMs => exact .inl ⟨rfl, Nat.le_refl _⟩
    | pollWatchdog nowMs => exact .inl ⟨rfl, Nat.le_refl _⟩
    | stop => exact hstarts.elim
    | recordHeartbeat nowMs => exact hstarts.elim
    | updateBuild newBuildId => exact hstarts.elim
  | quarantined _ _ hstate _ hcrashes =>
    rw [hstate, hcrashes]
    exact .inl ⟨Bool.and_false _, Nat.le_succ _⟩
  | crashed _ _ _ hstate _ hcrashes =>
    rw [hstate, hcrashes]
    exact .inl ⟨Bool.and_false _, Nat.le_succ _⟩
  | stopped hcall _ _ hcrashes =>
    rw [hcrashes, hcall]
    exact .inl ⟨rfl, Nat.le_refl _⟩
  | kept hcall _ _ _ _ hcrashes =>
    rw [hcrashes, hcall]
    exact .inl ⟨rfl, Nat.le_refl _⟩

/-- Without a rollback, every crash that the instance survives takes one of its retries. -/
theorem revivals_le (hsafe : AllSafe mode config lines calls) (hpre : before ++ mid <+: calls)
    (hquiet : ∀ m call, m ++ [call] <+: mid →
      rolledBack (call, answerTo mode config lines (before ++ m) call) = false) :
    (trace (step mode) (after mode config lines before) mid).countP (revived mode) ≤
        (after mode config lines (before ++ mid)).crashCountInWindow.toNat ∧
      ((trace (step mode) (after mode config lines before) mid).countP (revived mode) = 0 ∨
        (trace (step mode) (after mode config lines before) mid).countP (revived mode) <
          config.maxCrashRetries.toNat) := by
  induction mid using List.reverseRecOn with
  | nil => exact ⟨Nat.zero_le _, .inl rfl⟩
  | append_singleton mid call ih =>
    rw [← List.append_assoc] at hpre ⊢
    obtain ⟨hle, hcount⟩ := ih ((List.prefix_append _ _).trans hpre)
      (fun m call hm ↦ hquiet m call (hm.trans (List.prefix_append _ _)))
    have hnot := hquiet mid call List.prefix_rfl
    obtain ⟨hsteady, hnow, -⟩ := done_at hsafe hpre
    have hrun : run (step mode) (after mode config lines before) mid =
        after mode config lines (before ++ mid) := (run_append _ _).symm
    rw [trace_concat, List.countP_append, List.countP_singleton, hrun, after_concat]
    obtain ⟨hnone, hcrashes⟩ | ⟨hone, hcrashes, hunder⟩ := step_revived hnow hnot
    · rw [hnone]
      simp only [Bool.false_eq_true, if_false, Nat.add_zero]
      exact ⟨hle.trans hcrashes, hcount⟩
    · rw [hone, if_pos rfl, hcrashes, ← hsteady.retries]
      exact ⟨by omega, .inr (by omega)⟩

theorem starts_of_rolledBack {s : InstanceSupervisor} {x : InstanceSupervisor × Answer}
    (hdone : Done s call x) (h : rolledBack (call, x.2) = true) :
    isRollback call = true ∧ Starts s call := by
  obtain ⟨hrollback, hstarted⟩ := (Bool.and_eq_true _ _).mp h
  refine ⟨hrollback, ?_⟩
  cases call with
  | rollback nowMs =>
    cases hdone.move with
    | began _ hstarts => exact hstarts
    | quarantined hcall => cases hcall
    | crashed _ hcall => cases hcall
    | stopped hcall => cases hcall
    | kept _ _ _ _ _ _ hanswer =>
      rw [hanswer] at hstarted
      cases hstarted
  | _ => cases hrollback

theorem mem_history (hpre : before ++ [call] <+: calls) :
    (call, answerTo mode config lines before call) ∈ history mode config lines calls := by
  obtain ⟨rest, rfl⟩ := hpre
  unfold history answers
  rw [trace_append, trace_concat, List.map_append, List.map_append]
  exact List.mem_append_left _ (List.mem_append_right _ List.mem_cons_self)

/-- A run of safe calls keeps to the life of an instance. -/
theorem lifecycle_of_safe (mode : Overflow) (config : InstanceConfig) (lines : ℕ)
    (calls : List Call) (hsafe : AllSafe mode config lines calls) :
    Lifecycle mode config lines calls := by
  refine ⟨fun before call hpre ↦ ?_, fun before mid hpre hdown hquiet ↦ ?_,
    fun before first mid last hpre hfirst hlast hquiet ↦ ?_,
    fun before call hpre pid startedAtMs hrunning ↦ pids_at hsafe hpre hrunning⟩
  · obtain ⟨-, -, hreturned, -⟩ := done_at hsafe hpre
    exact hreturned
  · obtain ⟨b, rfl⟩ | hquarantined := hdown
    · have hhalted : latest halting (history mode config lines (b ++ [.stop])) = some true := by
        rw [history_concat, latest_concat]
        rfl
      have hlast := stays_halted hhalted hquiet
      have hdown := (steady_run (hsafe.before hpre)).halted hlast
      cases hstate : (after mode config lines (b ++ [.stop] ++ mid)).state with
      | running pid startedAtMs =>
        rw [hstate] at hdown
        cases hdown
      | _ => rfl
    · obtain ⟨n, hstate⟩ := stays_quarantined hsafe hpre hquarantined hquiet
      rw [hstate]
      rfl
  · have hmid : (before ++ [first]) ++ mid <+: calls := (List.prefix_append _ _).trans hpre
    obtain ⟨-, hcount⟩ := revivals_le hsafe hmid hquiet
    obtain ⟨hsteady, hnow, hdone⟩ := done_at hsafe hpre
    obtain ⟨hrollback, hstarts⟩ := starts_of_rolledBack hdone hlast
    have hretries := hnow.retries ⟨_, mem_history (List.prefix_append _ _), hfirst⟩ hrollback hstarts
    rw [hsteady.retries] at hretries
    have hpos : config.maxCrashRetries.toNat ≠ 0 :=
      fun hzero ↦ hretries (BitVec.eq_of_toNat_eq hzero)
    omega

end Runs

section Examples

def server (autoRestart : Bool) (maxCrashRetries : BitVec 32) : InstanceConfig :=
  ⟨"inst", "ald-server.exe", "server.toml", autoRestart, maxCrashRetries, 15000, "build-0.1.0"⟩

theorem safe_of_room {s : InstanceSupervisor} {h : List Event} {call : Call}
    (hlines : s.maxLogLines ≠ 0) (hpids : s.simulatedPidCounter.toNat + 1 < 2 ^ 32)
    (hcrashes : s.crashCountInWindow.toNat + 1 < 2 ^ 32) (hhalted : latest halting h ≠ some true)
    (hretries : s.config.maxCrashRetries ≠ 0) : Safe s h call :=
  ⟨fun _ ↦ hlines, fun _ ↦ hpids, fun _ ↦ hcrashes, fun hlast ↦ absurd hlast hhalted,
    fun _ _ _ ↦ hretries⟩

theorem crash_survived :
    Lifecycle .panics (server true 3) 50 [.start 1000, .handleCrash (some 1) 1100, .stop] := by
  refine lifecycle_of_safe .panics (server true 3) 50
    [.start 1000, .handleCrash (some 1) 1100, .stop] ?_
  have hstart : AllSafe .panics (server true 3) 50 ([] ++ [.start 1000]) :=
    throughout_concat.mpr ⟨throughout_nil,
      safe_of_room (by decide) (by decide) (by decide) (by decide) (by decide)⟩
  have hcrash : AllSafe .panics (server true 3) 50
      ([.start 1000] ++ [.handleCrash (some 1) 1100]) :=
    throughout_concat.mpr ⟨hstart,
      safe_of_room (by decide) (by decide) (by decide) (by decide) (by decide)⟩
  exact throughout_concat.mpr ⟨hcrash,
    safe_of_room (by decide) (by decide) (by decide) (by decide) (by decide)⟩

/-- A stopped instance is started again by a late crash report, and without lines in the log the
first start panics. -/
theorem lifecycle_broken :
    ¬Lifecycle .panics (server true 3) 50 [.start 1000, .stop, .handleCrash (some 1) 1100] ∧
      ¬Lifecycle .panics (server true 3) 0 [.start 1000] := by
  constructor
  · intro hlife
    have hdown := hlife.stays [.start 1000, .stop] [.handleCrash (some 1) 1100] List.prefix_rfl
      (.inl ⟨[.start 1000], rfl⟩) (fun first call hfirst ↦ ?_)
    · exact absurd hdown (by decide)
    · rcases List.prefix_concat_iff.mp (show _ <+: [] ++ [_] from hfirst) with heq | hnil
      · obtain ⟨rfl, hcall⟩ := List.append_inj' heq rfl
        obtain rfl := List.singleton_inj.mp hcall
        rfl
      · exact absurd (List.prefix_nil.mp hnil) (List.concat_ne_nil _ _)
  · intro hlife
    exact hlife.returns [] (.start 1000) List.prefix_rfl (by rfl)

end Examples

end Aldivine.Aegis.Lifecycles
