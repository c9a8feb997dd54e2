import Aldivine.Foundation.Execution
import Aldivine.Foundation.Machine
import Mathlib.Order.Basic

namespace Aldivine.Availability.Leaders

open Foundation.Execution Foundation.Machine

inductive ElectionError
  | staleEpoch (current provided : BitVec 64)
  | leaderStillActive (leader : String)
deriving DecidableEq

structure LeaderCoordinator where
  currentEpoch : BitVec 64
  currentLeader : Option String
  lastHeartbeatMs : BitVec 64
  heartbeatTimeoutMs : BitVec 64
deriving DecidableEq

/-- The epoch that a claim gives back, and nothing for a heartbeat. -/
abbrev Answer := Outcome ElectionError (Option (BitVec 64))

namespace LeaderCoordinator

def new (heartbeatTimeoutMs : BitVec 64) : LeaderCoordinator := ⟨0, none, 0, heartbeatTimeoutMs⟩

def recordHeartbeat (s : LeaderCoordinator) (leaderId : String) (epoch nowMs : BitVec 64) :
    LeaderCoordinator × Answer :=
  if epoch < s.currentEpoch then (s, .err (.staleEpoch s.currentEpoch epoch))
  else
    ({ s with currentEpoch := epoch, currentLeader := some leaderId, lastHeartbeatMs := nowMs },
      .ok none)

/-- `saturating_sub` is the subtraction of natural numbers. -/
def isTimedOut (s : LeaderCoordinator) (nowMs : BitVec 64) : Bool :=
  nowMs.toNat - s.lastHeartbeatMs.toNat > s.heartbeatTimeoutMs.toNat

def attemptClaimLeadership (mode : Overflow) (s : LeaderCoordinator) (candidateId : String)
    (nowMs : BitVec 64) : LeaderCoordinator × Answer :=
  match s.currentLeader.filter (fun _ ↦ !s.isTimedOut nowMs) with
  | some leader => (s, .err (.leaderStillActive leader))
  | none =>
    match mode.add s.currentEpoch 1 with
    | none => (s, .panic)
    | some epoch =>
      ({ s with currentEpoch := epoch, currentLeader := some candidateId, lastHeartbeatMs := nowMs },
        .ok (some epoch))

end LeaderCoordinator

inductive Call
  | recordHeartbeat (leaderId : String) (epoch nowMs : BitVec 64)
  | attemptClaimLeadership (candidateId : String) (nowMs : BitVec 64)
deriving DecidableEq

def Call.node : Call → String
  | .recordHeartbeat leaderId _ _ => leaderId
  | .attemptClaimLeadership candidateId _ => candidateId

def Call.nowMs : Call → BitVec 64
  | .recordHeartbeat _ _ nowMs => nowMs
  | .attemptClaimLeadership _ nowMs => nowMs

def step (mode : Overflow) (s : LeaderCoordinator) : Call → LeaderCoordinator × Answer
  | .recordHeartbeat leaderId epoch nowMs => s.recordHeartbeat leaderId epoch nowMs
  | .attemptClaimLeadership candidateId nowMs => s.attemptClaimLeadership mode candidateId nowMs

variable {mode : Overflow} {s s' : LeaderCoordinator} {call : Call}

def LeaderCoordinator.leads (s : LeaderCoordinator) (epoch : BitVec 64) (call : Call) :
    LeaderCoordinator :=
  { s with
      currentEpoch := epoch
      currentLeader := some call.node
      lastHeartbeatMs := call.nowMs }

inductive Called (mode : Overflow) (s : LeaderCoordinator) : Call → LeaderCoordinator → Prop
  | stale {leaderId : String} {epoch nowMs : BitVec 64} (hepoch : epoch < s.currentEpoch) :
      Called mode s (.recordHeartbeat leaderId epoch nowMs) s
  | heard {leaderId : String} {epoch nowMs : BitVec 64} (hepoch : s.currentEpoch ≤ epoch) :
      Called mode s (.recordHeartbeat leaderId epoch nowMs)
        (s.leads epoch (.recordHeartbeat leaderId epoch nowMs))
  | active {candidateId leader : String} {nowMs : BitVec 64}
      (hleader : s.currentLeader = some leader) (htime : s.isTimedOut nowMs = false) :
      Called mode s (.attemptClaimLeadership candidateId nowMs) s
  | panicked {candidateId : String} {nowMs : BitVec 64} (hmode : mode = .panics) :
      Called mode s (.attemptClaimLeadership candidateId nowMs) s
  | claimed {candidateId : String} {nowMs epoch : BitVec 64}
      (hfree : s.currentLeader = none ∨ s.isTimedOut nowMs = true)
      (hepoch : mode.add s.currentEpoch 1 = some epoch) :
      Called mode s (.attemptClaimLeadership candidateId nowMs)
        (s.leads epoch (.attemptClaimLeadership candidateId nowMs))

theorem step_called (mode : Overflow) (s : LeaderCoordinator) (call : Call) :
    Called mode s call (step mode s call).1 := by
  cases call with
  | recordHeartbeat leaderId epoch nowMs =>
    simp only [step, LeaderCoordinator.recordHeartbeat]
    split
    · exact .stale ‹_›
    · exact .heard (BitVec.not_lt.mp ‹_›)
  | attemptClaimLeadership candidateId nowMs =>
    simp only [step, LeaderCoordinator.attemptClaimLeadership]
    cases hactive : s.currentLeader.filter (fun _ ↦ !s.isTimedOut nowMs) with
    | some leader =>
      obtain ⟨hleader, htime⟩ := Option.filter_eq_some_iff.mp hactive
      exact .active hleader (by simpa using htime)
    | none =>
      have hfree : s.currentLeader = none ∨ s.isTimedOut nowMs = true := by
        cases hleader : s.currentLeader with
        | none => exact .inl rfl
        | some leader => simpa [hleader, Option.filter] using hactive
      cases hepoch : mode.add s.currentEpoch 1 with
      | none => exact .panicked (add_one_eq_none hepoch).2
      | some epoch => exact .claimed hfree hepoch

/-- No node is heard or claims the lead in a way that could make two leaders: another node's
heartbeat comes in a later epoch and once the leader is silent, and a claim does not exhaust the
epochs. -/
def Fenced (mode : Overflow) (s : LeaderCoordinator) : Call → Prop
  | .recordHeartbeat leaderId epoch nowMs =>
    s.currentEpoch ≤ epoch → ∀ leader, s.currentLeader = some leader → leaderId ≠ leader →
      s.currentEpoch < epoch ∧ s.isTimedOut nowMs = true
  | .attemptClaimLeadership _ nowMs =>
    mode = .wraps → s.currentLeader = none ∨ s.isTimedOut nowMs = true →
      s.currentEpoch.toNat + 1 < 2 ^ 64

/-- While the leader is heard of, no call of another node replaces it. -/
def Undisturbed (mode : Overflow) (s : LeaderCoordinator) (call : Call) : Prop :=
  ∀ leader, s.currentLeader = some leader → s.isTimedOut call.nowMs = false →
    call.node ≠ leader → (step mode s call).1.currentLeader = some leader

/-- A call that stays in the epoch stays with its leader. -/
def Loyal (mode : Overflow) (s : LeaderCoordinator) (call : Call) : Prop :=
  ∀ a b, (step mode s call).1.currentEpoch = s.currentEpoch → s.currentLeader = some a →
    (step mode s call).1.currentLeader = some b → a = b

theorem claimed_epoch {epoch : BitVec 64} (hepoch : mode.add s.currentEpoch 1 = some epoch)
    (hroom : mode = .wraps → s.currentEpoch.toNat + 1 < 2 ^ 64) :
    epoch.toNat = s.currentEpoch.toNat + 1 :=
  word_exact hepoch hroom

theorem epoch_le_of_fenced (h : Fenced mode s call) :
    s.currentEpoch ≤ (step mode s call).1.currentEpoch := by
  have hcalled := step_called mode s call
  generalize (step mode s call).1 = s' at hcalled ⊢
  cases hcalled with
  | stale hepoch => exact BitVec.le_refl _
  | heard hepoch => exact hepoch
  | active hleader htime => exact BitVec.le_refl _
  | panicked hmode => exact BitVec.le_refl _
  | claimed hfree hepoch =>
    have hsucc := claimed_epoch hepoch (fun hmode ↦ h hmode hfree)
    rw [BitVec.le_def]
    exact hsucc ▸ Nat.le_succ _

theorem undisturbed_of_fenced (h : Fenced mode s call) : Undisturbed mode s call := by
  intro leader hleader htime hnode
  have hcalled := step_called mode s call
  generalize (step mode s call).1 = s' at hcalled ⊢
  cases hcalled with
  | stale hepoch => exact hleader
  | heard hepoch =>
    have hsilent := (h hepoch leader hleader hnode).2
    exact absurd htime (by simp [Call.nowMs, hsilent])
  | active hleader' htime' => exact hleader
  | panicked hmode => exact hleader
  | claimed hfree hepoch =>
    rcases hfree with hnone | hsilent
    · cases hnone.symm.trans hleader
    · exact absurd htime (by simp [Call.nowMs, hsilent])

theorem loyal_of_fenced (h : Fenced mode s call) : Loyal mode s call := by
  intro a b hsame ha hb
  have hcalled := step_called mode s call
  generalize (step mode s call).1 = s' at hcalled hsame hb
  cases hcalled with
  | stale hepoch => exact Option.some.inj (ha.symm.trans hb)
  | heard hepoch =>
    cases hb
    by_contra hne
    have hlater := (h hepoch a ha (Ne.symm hne)).1
    exact BitVec.ne_of_lt hlater hsame.symm
  | active hleader htime => exact Option.some.inj (ha.symm.trans hb)
  | panicked hmode => exact Option.some.inj (ha.symm.trans hb)
  | claimed hfree hepoch =>
    have hsucc := claimed_epoch hepoch (fun hmode ↦ h hmode hfree)
    have heq := congrArg BitVec.toNat hsame
    exact absurd (hsucc.symm.trans heq) (Nat.succ_ne_self _)

theorem fenced_of_safe (hle : s.currentEpoch ≤ (step mode s call).1.currentEpoch)
    (hundisturbed : Undisturbed mode s call) (hloyal : Loyal mode s call) :
    Fenced mode s call := by
  cases call with
  | recordHeartbeat leaderId epoch nowMs =>
    intro hepoch leader hleader hne
    have hstep : (step mode s (.recordHeartbeat leaderId epoch nowMs)).1 =
        s.leads epoch (.recordHeartbeat leaderId epoch nowMs) := by
      simp only [step, LeaderCoordinator.recordHeartbeat, if_neg (BitVec.not_lt.mpr hepoch)]
      rfl
    refine ⟨?_, ?_⟩
    · refine BitVec.lt_of_le_ne hepoch (fun hsame ↦ ?_)
      refine hne (hloyal leader leaderId ?_ hleader ?_).symm
      · rw [hstep]
        exact hsame.symm
      · rw [hstep]
        rfl
    · by_contra htime
      have hkept := hundisturbed leader hleader (Bool.eq_false_iff.mpr htime) hne
      rw [hstep] at hkept
      exact hne (Option.some.inj hkept)
  | attemptClaimLeadership candidateId nowMs =>
    intro hmode hfree
    subst hmode
    rcases add_one_cases .wraps s.currentEpoch with ⟨x, -, hroom, -⟩ | ⟨x, hx, -, -, hzero⟩ | hpanics
    · exact hroom
    · -- the epoch comes round to zero
      have hstep : (step .wraps s (.attemptClaimLeadership candidateId nowMs)).1.currentEpoch =
          x := by
        have hinactive : s.currentLeader.filter (fun _ ↦ !s.isTimedOut nowMs) = none := by
          rcases hfree with hnone | hsilent
          · simp [hnone]
          · simp [hsilent]
        simp only [step, LeaderCoordinator.attemptClaimLeadership, hinactive, hx]
      rw [hstep, BitVec.le_def, hzero] at hle
      have hpow : (0 : ℕ) + 1 < 2 ^ 64 := by decide
      rwa [Nat.le_zero.mp hle]
    · cases hpanics.2.2

def OneLeader (mode : Overflow) (s : LeaderCoordinator) (calls : List Call) : Prop :=
  ∀ p q a b, p <+: calls → q <+: calls →
    (run (step mode) s p).currentEpoch = (run (step mode) s q).currentEpoch →
    (run (step mode) s p).currentLeader = some a →
    (run (step mode) s q).currentLeader = some b → a = b

theorem leader_isSome_step (h : s.currentLeader.isSome) :
    (step mode s call).1.currentLeader.isSome := by
  have hcalled := step_called mode s call
  generalize (step mode s call).1 = s' at hcalled ⊢
  cases hcalled with
  | stale hepoch => exact h
  | heard hepoch => rfl
  | active hleader htime => exact h
  | panicked hmode => exact h
  | claimed hfree hepoch => rfl

def tenure (s : LeaderCoordinator) : ℕ × Bool := (s.currentEpoch.toNat, s.currentLeader.isSome)

theorem tenure_le_step (hle : s.currentEpoch ≤ (step mode s call).1.currentEpoch) :
    tenure s ≤ tenure (step mode s call).1 :=
  ⟨BitVec.le_def.mp hle, fun h ↦ leader_isSome_step h⟩

theorem leader_eq_iff (hsome : s.currentLeader.isSome = s'.currentLeader.isSome) :
    s.currentLeader = s'.currentLeader ↔
      ∀ a b, s.currentLeader = some a → s'.currentLeader = some b → a = b := by
  cases ha : s.currentLeader with
  | none =>
    cases hb : s'.currentLeader with
    | none => simp
    | some b => simp [ha, hb] at hsome
  | some a =>
    cases hb : s'.currentLeader with
    | none => simp [ha, hb] at hsome
    | some b => simp

theorem tenure_eq_iff :
    tenure s = tenure s' ↔
      s.currentEpoch = s'.currentEpoch ∧ s.currentLeader.isSome = s'.currentLeader.isSome := by
  rw [tenure, tenure, Prod.mk.injEq, BitVec.toNat_inj]

/-- While epochs do not decrease, one leader an epoch comes down to the single calls. -/
theorem oneLeader_iff_loyal (calls : List Call)
    (hle : ∀ x ∈ trace (step mode) s calls,
      x.1.currentEpoch ≤ (step mode x.1 x.2).1.currentEpoch) :
    OneLeader mode s calls ↔ ∀ x ∈ trace (step mode) s calls, Loyal mode x.1 x.2 := by
  have hruns := versioned_run_iff tenure LeaderCoordinator.currentLeader calls
    (fun x hx ↦ tenure_le_step (hle x hx))
  constructor
  · intro h x hx a b hsame ha hb
    have hview := hruns.mp (fun p q hp hq heq ↦ ?_) x hx ?_
    · exact Option.some.inj (ha.symm.trans (hview.symm.trans hb))
    · obtain ⟨hepoch, hsome⟩ := tenure_eq_iff.mp heq
      exact (leader_eq_iff hsome).mpr (fun a b ↦ h p q a b hp hq hepoch)
    · exact tenure_eq_iff.mpr ⟨hsame, by rw [ha, hb]; rfl⟩
  · intro h p q a b hp hq hepoch ha hb
    have hview := hruns.mpr (fun x hx heq ↦ ?_) p q hp hq
      (tenure_eq_iff.mpr ⟨hepoch, by rw [ha, hb]; rfl⟩)
    · exact Option.some.inj (ha.symm.trans (hview.trans hb))
    · obtain ⟨hepoch, hsome⟩ := tenure_eq_iff.mp heq
      exact (leader_eq_iff hsome).mpr (fun b a hb ha ↦ (h x hx a b hepoch ha hb).symm)

/-- Along a run of heartbeats and claims no epoch has two leaders, no epoch decreases and no leader
that is heard of is replaced, exactly when every call is fenced. -/
theorem split_brain_safe_iff (mode : Overflow) (heartbeatTimeoutMs : BitVec 64)
    (calls : List Call) :
    OneLeader mode (.new heartbeatTimeoutMs) calls ∧
        (∀ x ∈ trace (step mode) (.new heartbeatTimeoutMs) calls,
          x.1.currentEpoch ≤ (step mode x.1 x.2).1.currentEpoch) ∧
        (∀ x ∈ trace (step mode) (.new heartbeatTimeoutMs) calls, Undisturbed mode x.1 x.2) ↔
      ∀ x ∈ trace (step mode) (.new heartbeatTimeoutMs) calls, Fenced mode x.1 x.2 := by
  constructor
  · intro h x hx
    obtain ⟨hone, hle, hundisturbed⟩ := h
    have hloyal := (oneLeader_iff_loyal calls hle).mp hone
    exact fenced_of_safe (hle x hx) (hundisturbed x hx) (hloyal x hx)
  · intro h
    have hle : ∀ x ∈ trace (step mode) (.new heartbeatTimeoutMs) calls,
        x.1.currentEpoch ≤ (step mode x.1 x.2).1.currentEpoch :=
      fun x hx ↦ epoch_le_of_fenced (h x hx)
    refine ⟨(oneLeader_iff_loyal calls hle).mpr ?_, hle, ?_⟩
    · exact fun x hx ↦ loyal_of_fenced (h x hx)
    · exact fun x hx ↦ undisturbed_of_fenced (h x hx)

def rivals : List Call := [.recordHeartbeat "node-a" 1 1000, .recordHeartbeat "node-b" 1 1001]

theorem rivals_share_epoch :
    ¬ (OneLeader .wraps (.new 3000) rivals ∧
      (∀ x ∈ trace (step .wraps) (.new 3000) rivals,
        x.1.currentEpoch ≤ (step .wraps x.1 x.2).1.currentEpoch) ∧
      ∀ x ∈ trace (step .wraps) (.new 3000) rivals, Undisturbed .wraps x.1 x.2) := by
  intro h
  have hsame := h.1 (rivals.take 1) rivals "node-a" "node-b" (List.take_prefix 1 rivals)
    List.prefix_rfl rfl rfl rfl
  exact absurd hsame (by decide)

end Aldivine.Availability.Leaders
