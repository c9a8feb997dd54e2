import Aldivine.Aegis.Auth

namespace Aldivine.Aegis.Attempts

open Foundation.Execution Foundation.Machine Foundation.Table Sessions Auth

structure Login where
  account : AegisAccount
  attempt : LoginAttempt
  now : BitVec 64
  token : String
deriving DecidableEq

def Login.username (l : Login) : String := l.account.username

def step (mode : Overflow) (verify : Verifiers) (st : AuthService) (l : Login) :
    AuthService × AuthOutcome :=
  st.login mode verify l.account l.attempt l.now l.token

def full : AuthOutcome → Bool
  | .success _ => true
  | .secondFactorAccepted _ => true
  | _ => false

variable {mode : Overflow} {verify : Verifiers} {st st' : AuthService} {l : Login} {u : String}
  {answer : AuthOutcome} {now stop : BitVec 64}

section Isolation

structure Alike (u : String) (st st' : AuthService) : Prop where
  limits : st'.limits.lookup u = st.limits.lookup u
  maxAttempts : st'.maxAttempts = st.maxAttempts
  lockoutWindow : st'.lockoutWindow = st.lockoutWindow
  absoluteTtl : st'.sessions.absoluteTtl = st.sessions.absoluteTtl
  idleTtl : st'.sessions.idleTtl = st.sessions.idleTtl

theorem Alike.refl (u : String) (st : AuthService) : Alike u st st := ⟨rfl, rfl, rfl, rfl, rfl⟩

/-- The two calls are answered the same, and the name still finds the services alike. -/
def Same (u : String) (x x' : AuthService × AuthOutcome) : Prop :=
  x'.2 = x.2 ∧ Alike u x.1 x'.1

theorem isLocked_alike (h : Alike u st st') (now : BitVec 64) :
    st'.isLocked mode u now = st.isLocked mode u now := by
  unfold AuthService.isLocked
  rw [h.limits, h.maxAttempts, h.lockoutWindow]

theorem recordFailure_alike (h : Alike u st st') (now : BitVec 64) (sourceIp : Option String)
    (detail : String) :
    Same u (st.recordFailure mode u now sourceIp detail)
      (st'.recordFailure mode u now sourceIp detail) := by
  unfold AuthService.recordFailure
  simp only [h.limits, h.lockoutWindow]
  split
  · exact ⟨rfl, h⟩
  split
  · refine ⟨rfl, ?_, h.maxAttempts, rfl, h.absoluteTtl, h.idleTtl⟩
    rw [AList.lookup_insert, AList.lookup_insert]
  · refine ⟨rfl, ?_, h.maxAttempts, rfl, h.absoluteTtl, h.idleTtl⟩
    rw [AList.lookup_insert, AList.lookup_insert]

theorem withSession_alike (h : Alike u st st') (token userId : String) (now : BitVec 64)
    (fully : Bool) {next : AuthService → Session → AuthService × AuthOutcome}
    (hnext : ∀ st st' session, Alike u st st' → Same u (next st session) (next st' session)) :
    Same u (st.withSession mode token userId now fully next)
      (st'.withSession mode token userId now fully next) := by
  unfold AuthService.withSession SessionStore.create
  rw [h.absoluteTtl, h.idleTtl]
  cases mode.add now st.sessions.absoluteTtl with
  | none => exact ⟨rfl, h⟩
  | some absolute =>
    cases mode.add now st.sessions.idleTtl with
    | none => exact ⟨rfl, h⟩
    | some idle =>
      exact hnext _ _ _ ⟨h.limits, h.maxAttempts, h.lockoutWindow, rfl, rfl⟩

theorem recordSuccess_alike (h : Alike u st st') (now : BitVec 64) (sourceIp : Option String)
    (detail : String) : Alike u (st.recordSuccess u now sourceIp detail)
      (st'.recordSuccess u now sourceIp detail) := by
  refine ⟨?_, h.maxAttempts, h.lockoutWindow, h.absoluteTtl, h.idleTtl⟩
  change (st'.limits.erase u).lookup u = (st.limits.erase u).lookup u
  rw [AList.lookup_erase, AList.lookup_erase]

theorem step_alike (h : Alike l.username st st') :
    Same l.username (step mode verify st l) (step mode verify st' l) := by
  unfold step AuthService.login
  change Alike l.account.username st st' at h
  change Same l.account.username _ _
  rw [isLocked_alike h]
  split
  · exact ⟨rfl, h⟩
  · rw [h.lockoutWindow]
    exact ⟨rfl, h.limits, h.maxAttempts, rfl, h.absoluteTtl, h.idleTtl⟩
  split
  · exact recordFailure_alike h _ _ _
  split
  · refine withSession_alike h _ _ _ _ (fun st st' session h ↦ ⟨rfl, ?_⟩)
    exact recordSuccess_alike h _ _ _
  split
  · exact withSession_alike h _ _ _ _ (fun st st' session h ↦ ⟨rfl, h⟩)
  split
  · refine withSession_alike h _ _ _ _ (fun st st' session h ↦ ⟨rfl, ?_⟩)
    exact recordSuccess_alike h _ _ _
  · exact recordFailure_alike h _ _ _

theorem recordFailure_other (h : Alike u st st') {username : String} (hne : u ≠ username)
    (now : BitVec 64) (sourceIp : Option String) (detail : String) :
    Alike u (st.recordFailure mode username now sourceIp detail).1 st' := by
  simp only [AuthService.recordFailure]
  split
  · exact h
  split
  · refine ⟨?_, h.maxAttempts, h.lockoutWindow, h.absoluteTtl, h.idleTtl⟩
    exact h.limits.trans (AList.lookup_insert_ne hne).symm
  · refine ⟨?_, h.maxAttempts, h.lockoutWindow, h.absoluteTtl, h.idleTtl⟩
    exact h.limits.trans (AList.lookup_insert_ne hne).symm

theorem withSession_other (h : Alike u st st') (token userId : String) (now : BitVec 64)
    (fully : Bool) {next : AuthService → Session → AuthService × AuthOutcome}
    (hnext : ∀ st session, Alike u st st' → Alike u (next st session).1 st') :
    Alike u (st.withSession mode token userId now fully next).1 st' := by
  unfold AuthService.withSession SessionStore.create
  cases mode.add now st.sessions.absoluteTtl with
  | none => exact h
  | some absolute =>
    cases mode.add now st.sessions.idleTtl with
    | none => exact h
    | some idle =>
      exact hnext _ _ ⟨h.limits, h.maxAttempts, h.lockoutWindow, h.absoluteTtl, h.idleTtl⟩

theorem recordSuccess_other (h : Alike u st st') {username : String} (hne : u ≠ username)
    (now : BitVec 64) (sourceIp : Option String) (detail : String) :
    Alike u (st.recordSuccess username now sourceIp detail) st' := by
  refine ⟨?_, h.maxAttempts, h.lockoutWindow, h.absoluteTtl, h.idleTtl⟩
  exact h.limits.trans (AList.lookup_erase_ne hne).symm

theorem step_other (h : Alike u st st') (hne : u ≠ l.username) :
    Alike u (step mode verify st l).1 st' := by
  unfold step AuthService.login
  split
  · exact h
  · exact ⟨h.limits, h.maxAttempts, h.lockoutWindow, h.absoluteTtl, h.idleTtl⟩
  split
  · exact recordFailure_other h hne _ _ _
  split
  · exact withSession_other h _ _ _ _ (fun st session h ↦ recordSuccess_other h hne _ _ _)
  split
  · exact withSession_other h _ _ _ _ (fun st session h ↦ h)
  split
  · exact withSession_other h _ _ _ _ (fun st session h ↦ recordSuccess_other h hne _ _ _)
  · exact recordFailure_other h hne _ _ _

theorem answers_isolated (mode : Overflow) (verify : Verifiers) (st : AuthService) (u : String)
    (calls : List Login) :
    (answers (step mode verify) st calls).filter (fun x ↦ decide (x.1.username = u)) =
      answers (step mode verify) st (calls.filter (fun l ↦ decide (l.username = u))) := by
  refine answers_filter (R := Alike u) (p := fun l : Login ↦ decide (l.username = u)) ?_ ?_ (.refl u st) _
  · intro s s' l hl h
    obtain rfl := of_decide_eq_true hl
    exact step_alike h
  · intro s s' l hl h
    exact step_other h (Ne.symm (of_decide_eq_false hl))

end Isolation

section Windows

def windowEnd (st : AuthService) (u : String) : ℕ :=
  (st.rate u).windowStart.toNat + st.lockoutWindow.toNat

def Fits (st : AuthService) (l : Login) : Prop := windowEnd st l.username < 2 ^ 64

instance (st : AuthService) (l : Login) : Decidable (Fits st l) :=
  inferInstanceAs (Decidable (_ < _))

inductive Move (st : AuthService) (u : String) (now : BitVec 64) (st' : AuthService)
    (answer : AuthOutcome) : Prop
  | failed (hanswer : answer = .invalidCredentials) (hnow : now.toNat < windowEnd st u)
    (hunder : (st.rate u).failures.toNat < st.maxAttempts.toNat)
    (hfailures : (st'.rate u).failures.toNat = (st.rate u).failures.toNat + 1)
    (hstart : (st'.rate u).windowStart = (st.rate u).windowStart)
  | reopened (hanswer : answer = .invalidCredentials) (hnow : windowEnd st u ≤ now.toNat)
    (hrate : st'.rate u = ⟨1, now⟩)
  | cleared (hanswer : full answer = true) (hrate : st'.rate u = .default)
  | kept (hanswer : answer ≠ .invalidCredentials) (hfull : full answer = false)
    (hrate : st'.rate u = st.rate u)

theorem recordFailure_move (hlocked : st.isLocked mode u now = some false)
    (hfits : windowEnd st u < 2 ^ 64) (hmax : 0 < st.maxAttempts.toNat) (sourceIp : Option String)
    (detail : String) :
    Move st u now (st.recordFailure mode u now sourceIp detail).1
      (st.recordFailure mode u now sourceIp detail).2 := by
  have hadd : mode.add (st.rate u).windowStart st.lockoutWindow = some (.ofNat 64 (windowEnd st u)) :=
    word_of_lt hfits
  have hstop : (BitVec.ofNat 64 (windowEnd st u)).toNat = windowEnd st u := by
    rw [BitVec.toNat_ofNat, Nat.mod_eq_of_lt hfits]
  have hrate : (st.limits.lookup u).getD .default = st.rate u := rfl
  have hlt := st.maxAttempts.isLt
  unfold AuthService.recordFailure
  simp only [hrate, hadd]
  by_cases hnow : windowEnd st u ≤ now.toNat
  · have hover : BitVec.ofNat 64 (windowEnd st u) ≤ now := by rwa [BitVec.le_def, hstop]
    obtain ⟨one, hone, hcount⟩ := add_one_of_room mode (a := (0 : BitVec 32)) (by decide)
    obtain rfl : one = 1 := BitVec.eq_of_toNat_eq hcount
    simp only [hover, if_true, hone]
    refine .reopened rfl hnow ?_
    simp only [AuthService.rate, AList.lookup_insert, Option.getD_some]
  · have hover : ¬BitVec.ofNat 64 (windowEnd st u) ≤ now := by rwa [BitVec.le_def, hstop]
    have hunder := AuthService.failures_lt hlocked hadd hmax (by rw [hstop]; omega)
    obtain ⟨failures, hfailures, hcount⟩ :=
      add_one_of_room mode (a := (st.rate u).failures) (by omega)
    simp only [hover, if_false, hfailures]
    refine .failed rfl (Nat.lt_of_not_le hnow) hunder ?_ ?_
    · simp only [AuthService.rate, AList.lookup_insert, Option.getD_some]
      exact hcount
    · simp only [AuthService.rate, AList.lookup_insert, Option.getD_some]

theorem withSession_move {token userId : String} {fully : Bool}
    {next : AuthService → Session → AuthService × AuthOutcome}
    (hnext : ∀ sessions session, Move st u now (next { st with sessions } session).1
      (next { st with sessions } session).2) :
    Move st u now (st.withSession mode token userId now fully next).1
      (st.withSession mode token userId now fully next).2 := by
  unfold AuthService.withSession
  split
  · exact hnext _ _
  · exact .kept AuthOutcome.noConfusion rfl rfl

theorem recordSuccess_rate (sourceIp : Option String) (detail : String) :
    (st.recordSuccess u now sourceIp detail).rate u = .default := by
  change ((st.limits.erase u).lookup u).getD _ = _
  rw [AList.lookup_erase, Option.getD_none]

theorem step_move (hfits : Fits st l) (hmax : 0 < st.maxAttempts.toNat) :
    Move st l.username l.now (step mode verify st l).1 (step mode verify st l).2 := by
  unfold step AuthService.login Login.username
  cases hlocked : st.isLocked mode l.account.username l.now with
  | none => exact .kept AuthOutcome.noConfusion rfl rfl
  | some locked =>
    cases locked with
    | true => exact .kept AuthOutcome.noConfusion rfl rfl
    | false =>
      dsimp only
      split
      · exact recordFailure_move hlocked hfits hmax _ _
      split
      · exact withSession_move (fun _ _ ↦ .cleared rfl (recordSuccess_rate _ _))
      split
      · exact withSession_move (fun _ _ ↦ .kept AuthOutcome.noConfusion rfl rfl)
      split
      · exact withSession_move (fun _ _ ↦ .cleared rfl (recordSuccess_rate _ _))
      · exact recordFailure_move hlocked hfits hmax _ _

theorem step_rate (hne : u ≠ l.username) : (step mode verify st l).1.rate u = st.rate u := by
  have hlookup := (@step_other mode verify _ _ l u (.refl u st) hne).limits
  unfold AuthService.rate
  rw [hlookup]

theorem step_limits (mode : Overflow) (verify : Verifiers) (st : AuthService) (l : Login) :
    (step mode verify st l).1.maxAttempts = st.maxAttempts ∧
      (step mode verify st l).1.lockoutWindow = st.lockoutWindow := by
  have htwo : Nontrivial String := ⟨⟨"", "a", by decide⟩⟩
  obtain ⟨u, hu⟩ := exists_ne l.username
  have hother := @step_other mode verify _ _ l u (.refl u st) hu
  exact ⟨hother.maxAttempts.symm, hother.lockoutWindow.symm⟩

def failed (u : String) (x : Login × AuthOutcome) : Bool :=
  decide (x.1.username = u) && decide (x.2 = .invalidCredentials)

/-- The logins under the name `u` begin at `start` or later, take less than `length`, and none of
them is fully successful. -/
def Stretch (u : String) (start length : ℕ) (h : List (Login × AuthOutcome)) : Prop :=
  ∀ x ∈ h, x.1.username = u →
    start ≤ x.1.now.toNat ∧ x.1.now.toNat < start + length ∧ full x.2 = false

/-- How many failures such a stretch still has room for: what is left of the window it begins in,
and the window after that. -/
def budget (start length attempts failures windowStart : ℕ) : ℕ :=
  if start ≤ windowStart then attempts - failures
  else if windowStart + length ≤ start then attempts
  else attempts - failures + attempts

def budgetOf (st : AuthService) (u : String) (start : ℕ) : ℕ :=
  budget start st.lockoutWindow.toNat st.maxAttempts.toNat (st.rate u).failures.toNat
    (st.rate u).windowStart.toNat

theorem step_budget {start : ℕ} (hfits : Fits st l) (hmax : 0 < st.maxAttempts.toNat)
    (hstretch : Stretch u start st.lockoutWindow.toNat [(l, (step mode verify st l).2)]) :
    (if failed u (l, (step mode verify st l).2) then 1 else 0) +
      budgetOf (step mode verify st l).1 u start ≤ budgetOf st u start := by
  obtain ⟨hattempts, hwindow⟩ := step_limits mode verify st l
  unfold budgetOf budget
  rw [hattempts, hwindow]
  by_cases hu : l.username = u
  · subst hu
    obtain ⟨hstart, hstop, hfull⟩ := hstretch _ List.mem_cons_self rfl
    dsimp only at hstart hstop
    have hend : windowEnd st l.username =
      (st.rate l.username).windowStart.toNat + st.lockoutWindow.toNat := rfl
    cases @step_move mode verify st l hfits hmax with
    | failed hanswer hnow hunder hfailures hwindowStart =>
      rw [hfailures, hwindowStart]
      simp only [failed, hanswer, decide_true, Bool.and_true, if_true]
      split_ifs <;> omega
    | reopened hanswer hnow hrate =>
      have hone : (1 : BitVec 32).toNat = 1 := rfl
      rw [hrate]
      simp only [failed, hanswer, decide_true, Bool.and_true, if_true, hone]
      split_ifs <;> omega
    | cleared hanswer hrate =>
      rw [hanswer] at hfull
      cases hfull
    | kept hanswer _ hrate =>
      rw [hrate]
      simp [failed, hanswer]
  · rw [step_rate (Ne.symm hu)]
    simp [failed, hu]

theorem failures_le_budget {start : ℕ} {calls : List Login} (hmax : 0 < st.maxAttempts.toNat)
    (hfits : ∀ x ∈ trace (step mode verify) st calls, Fits x.1 x.2)
    (hstretch : Stretch u start st.lockoutWindow.toNat (answers (step mode verify) st calls)) :
    (answers (step mode verify) st calls).countP (failed u) ≤ budgetOf st u start := by
  induction calls generalizing st with
  | nil => exact Nat.zero_le _
  | cons l calls ih =>
    obtain ⟨hattempts, hwindow⟩ := step_limits mode verify st l
    obtain ⟨hfit, hrest⟩ := List.forall_mem_cons.mp hfits
    rw [answers_cons] at hstretch ⊢
    obtain ⟨hfirst, hlater⟩ := List.forall_mem_cons.mp hstretch
    have hstep := @step_budget mode verify st l u start hfit hmax
      (List.forall_mem_singleton.mpr hfirst)
    have hcount := ih (by rwa [hattempts]) hrest (by rwa [hwindow])
    rw [List.countP_cons]
    omega

/-- A name has no failures on record but in a window that one of them opened. -/
def Counted (st : AuthService) : Prop :=
  ∀ u, st.rate u = .default ∨ 0 < (st.rate u).failures.toNat

theorem step_counted (hfits : Fits st l) (hmax : 0 < st.maxAttempts.toNat) (hst : Counted st) :
    Counted (step mode verify st l).1 := by
  intro u
  by_cases hu : l.username = u
  · subst hu
    cases @step_move mode verify st l hfits hmax with
    | failed _ _ _ hfailures =>
      rw [hfailures]
      exact .inr (Nat.succ_pos _)
    | reopened _ _ hrate =>
      rw [hrate]
      exact .inr Nat.one_pos
    | cleared _ hrate => exact .inl hrate
    | kept _ _ hrate =>
      rw [hrate]
      exact hst _
  · rw [step_rate (Ne.symm hu)]
    exact hst u

theorem counted_run {calls : List Login} (hmax : 0 < st.maxAttempts.toNat) (hst : Counted st)
    (hfits : ∀ x ∈ trace (step mode verify) st calls, Fits x.1 x.2) :
    (run (step mode verify) st calls).maxAttempts = st.maxAttempts ∧
      (run (step mode verify) st calls).lockoutWindow = st.lockoutWindow ∧
      Counted (run (step mode verify) st calls) := by
  refine invariant_run (I := fun now ↦ now.maxAttempts = st.maxAttempts ∧
    now.lockoutWindow = st.lockoutWindow ∧ Counted now) (P := Fits) ?_ ⟨rfl, rfl, hst⟩ calls hfits
  intro now l h hfit
  obtain ⟨hattempts, hwindow, hcounted⟩ := h
  obtain ⟨hattempts', hwindow'⟩ := step_limits mode verify now l
  exact ⟨hattempts'.trans hattempts, hwindow'.trans hwindow,
    step_counted hfit (by rwa [hattempts]) hcounted⟩

theorem budgetOf_le (hmax : 0 < st.maxAttempts.toNat) (hst : Counted st) (u : String)
    (start : ℕ) :
    budgetOf st u start ≤ 2 * st.maxAttempts.toNat ∧
      (st.lockoutWindow.toNat ≤ start → budgetOf st u start ≤ 2 * st.maxAttempts.toNat - 1) := by
  have hdefault : (RateState.default).failures.toNat = 0 ∧
    (RateState.default).windowStart.toNat = 0 := ⟨rfl, rfl⟩
  unfold budgetOf budget
  obtain hrate | hrate := hst u
  · rw [hrate, hdefault.1, hdefault.2]
    constructor <;> split_ifs <;> omega
  · constructor <;> split_ifs <;> omega

end Windows

def service (auditCapacity : ℕ) (maxAttempts : BitVec 32) (lockoutWindow : BitVec 64) : AuthService :=
  (AuthService.new auditCapacity).withLimits maxAttempts lockoutWindow

/-- Windows are fixed: a name has its budget twice in less than the length of one at most, once less
after the first window, and the logins of other names are nothing to it. -/
theorem failures_bounded (mode : Overflow) (verify : Verifiers) (auditCapacity : ℕ)
    (maxAttempts : BitVec 32) (lockoutWindow : BitVec 64) (hmax : 1 ≤ maxAttempts.toNat)
    (calls : List Login)
    (hfits : ∀ x ∈ trace (step mode verify) (service auditCapacity maxAttempts lockoutWindow) calls,
      Fits x.1 x.2) :
    (∀ before stretch after, calls = before ++ (stretch ++ after) → ∀ u start,
      let history := answers (step mode verify)
        (run (step mode verify) (service auditCapacity maxAttempts lockoutWindow) before) stretch
      Stretch u start lockoutWindow.toNat history →
        history.countP (failed u) ≤ 2 * maxAttempts.toNat ∧
        (lockoutWindow.toNat ≤ start →
          history.countP (failed u) ≤ 2 * maxAttempts.toNat - 1)) ∧
    ∀ u, (answers (step mode verify) (service auditCapacity maxAttempts lockoutWindow) calls).filter
        (fun x ↦ decide (x.1.username = u)) =
      answers (step mode verify) (service auditCapacity maxAttempts lockoutWindow)
        (calls.filter (fun l ↦ decide (l.username = u))) := by
  refine ⟨?_, fun u ↦ answers_isolated mode verify _ u calls⟩
  intro before stretch after hcalls u start history hstretch
  subst hcalls
  have hattempts : (service auditCapacity maxAttempts lockoutWindow).maxAttempts = maxAttempts := by
    change (if maxAttempts ≤ 1 then 1 else maxAttempts) = maxAttempts
    split
    · rename_i hle
      exact (BitVec.eq_of_toNat_eq (Nat.le_antisymm hle hmax)).symm
    · rfl
  rw [trace_append, trace_append, List.forall_mem_append, List.forall_mem_append] at hfits
  obtain ⟨hbefore, hnow, -⟩ := hfits
  obtain ⟨hattempts', hwindow, hcounted⟩ :=
    @counted_run mode verify _ before (by rwa [hattempts]) (fun _ ↦ .inl rfl) hbefore
  rw [hattempts] at hattempts'
  have hpos : 0 < (run (step mode verify) (service auditCapacity maxAttempts lockoutWindow)
      before).maxAttempts.toNat := by rwa [hattempts']
  have hbound := @failures_le_budget mode verify _ u start stretch hpos hnow (by rwa [hwindow])
  have hbudget := budgetOf_le hpos hcounted u start
  rw [hattempts', hwindow] at hbudget
  exact ⟨hbound.trans hbudget.1, fun hstart ↦ hbound.trans (hbudget.2 hstart)⟩

section Examples

def ann : AegisAccount := ⟨"id-ann", "ann", "hash", none⟩

def plain : Verifiers := ⟨fun password _ ↦ password = "s3cret", fun _ _ _ ↦ false⟩

def attemptAt (now : BitVec 64) : Login := ⟨ann, ⟨"ann", "wrong", none, none⟩, now, "t"⟩

/-- One failure opens a window; two more come at its end and three after it. -/
def aroundBoundary : List Login := [1000, 1098, 1099, 1100, 1101, 1102].map attemptAt

theorem boundary_bounded :
    ((answers (step .panics plain) (run (step .panics plain) (service 64 3 100) [attemptAt 1000])
      (aroundBoundary.drop 1)).countP (failed "ann")) ≤ 5 := by
  have hbound := (failures_bounded .panics plain 64 3 100 (by decide) aroundBoundary (by decide)).1
    [attemptAt 1000] (aroundBoundary.drop 1) [] rfl "ann" 1098 (by unfold Stretch; decide)
  exact hbound.2 (by decide)

/-- Five failures within five seconds, where three are allowed in a hundred. -/
theorem boundary_burst :
    let history := answers (step .panics plain)
      (run (step .panics plain) (service 64 3 100) [attemptAt 1000]) (aroundBoundary.drop 1)
    Stretch "ann" 1098 100 history ∧ history.countP (failed "ann") = 5 := by
  unfold Stretch
  decide

end Examples

end Aldivine.Aegis.Attempts
