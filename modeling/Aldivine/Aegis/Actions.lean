import Aldivine.Aegis.Attempts

namespace Aldivine.Aegis.Actions

open Foundation.Execution Foundation.Machine Sessions Auth Attempts

section PlayerManagement

def playersMessage : String := "players.message"

def playersWarn : String := "players.warn"

def playersKick : String := "players.kick"

def playersBan : String := "players.ban"

inductive BanDuration
  | temporary (expiresAt : BitVec 64)
  | permanent
deriving DecidableEq

structure BanRecord where
  banId : String
  playerId : String
  reason : String
  duration : BanDuration
  bannedBy : String
  bannedAt : BitVec 64
deriving DecidableEq

inductive ActionOutcome
  | applied
  | denied (permission : String)
  | noSuchPlayer
deriving DecidableEq

structure PlayerActions where
  audit : AuditLog
  permissions : String → String → Bool
  bans : List BanRecord
  online : String → Bool

namespace PlayerActions

def actionFor (permission : String) : AuditAction :=
  if permission = playersKick then .kick
  else if permission = playersBan then .ban
  else .permissionChange

def authorize (pa : PlayerActions) (actor permission target : String) (now : BitVec 64) :
    PlayerActions × ActionOutcome :=
  if pa.permissions actor permission then (pa, .applied)
  else
    ({ pa with
        audit := pa.audit.record ⟨actor, actionFor permission, some target, now, false,
          "denied: missing " ++ permission, none⟩ },
      .denied permission)

/-- What `message`, `warn` and `kick` do, each with its own permission, action and text. -/
def onPlayer (pa : PlayerActions) (permission : String) (action : AuditAction)
    (detail actor target : String) (now : BitVec 64) : PlayerActions × ActionOutcome :=
  match pa.authorize actor permission target now with
  | (pa, .applied) =>
    if !pa.online target then (pa, .noSuchPlayer)
    else
      ({ pa with audit := pa.audit.record ⟨actor, action, some target, now, true, detail, none⟩ },
        .applied)
  | other => other

def message (pa : PlayerActions) (actor target _body : String) (now : BitVec 64) :
    PlayerActions × ActionOutcome :=
  pa.onPlayer playersMessage .consoleCommand "message sent" actor target now

def warn (pa : PlayerActions) (actor target reason : String) (now : BitVec 64) :
    PlayerActions × ActionOutcome :=
  pa.onPlayer playersWarn .permissionChange ("warned: " ++ reason) actor target now

def kick (pa : PlayerActions) (actor target reason : String) (now : BitVec 64) :
    PlayerActions × ActionOutcome :=
  pa.onPlayer playersKick .kick ("kicked: " ++ reason) actor target now

/-- A ban does not ask whether the player is online. -/
def ban (pa : PlayerActions) (actor target reason : String) (duration : BanDuration)
    (now : BitVec 64) : PlayerActions × ActionOutcome :=
  match pa.authorize actor playersBan target now with
  | (pa, .applied) =>
    let banId := "ban-" ++ toString now.toNat ++ "-" ++ toString target.utf8ByteSize
    ({ pa with
        bans := pa.bans ++ [⟨banId, target, reason, duration, actor, now⟩]
        audit := pa.audit.record ⟨actor, .ban, some target, now, true, "banned: " ++ reason, none⟩ },
      .applied)
  | other => other

end PlayerActions

end PlayerManagement

/-- The logins with their own log, and the log and the bans that player actions work on. -/
structure Panel where
  auth : AuthService
  audit : AuditLog
  bans : List BanRecord

inductive Action
  | message (body : String)
  | warn (reason : String)
  | kick (reason : String)
  | ban (reason : String) (duration : BanDuration)
deriving DecidableEq

/-- Player actions come with the permissions and the population of the moment. -/
inductive Call
  | login (l : Login)
  | logout (token username : String) (now : BitVec 64)
  | act (permissions : String → String → Bool) (online : String → Bool) (action : Action)
    (actor target : String) (now : BitVec 64)

inductive Answer
  | login (outcome : AuthOutcome)
  | loggedOut
  | acted (outcome : ActionOutcome)
deriving DecidableEq

def act (pa : PlayerActions) (actor target : String) (now : BitVec 64) :
    Action → PlayerActions × ActionOutcome
  | .message body => pa.message actor target body now
  | .warn reason => pa.warn actor target reason now
  | .kick reason => pa.kick actor target reason now
  | .ban reason duration => pa.ban actor target reason duration now

def step (mode : Overflow) (verify : Verifiers) (st : Panel) : Call → Panel × Answer
  | .login l =>
    let result := Attempts.step mode verify st.auth l
    ({ st with auth := result.1 }, .login result.2)
  | .logout token username now => ({ st with auth := st.auth.logout token username now }, .loggedOut)
  | .act permissions online action actor target now =>
    let result := act ⟨st.audit, permissions, st.bans, online⟩ actor target now action
    ({ st with audit := result.1.audit, bans := result.1.bans }, .acted result.2)

section Completeness

def logs (st : Panel) : Call → AuditLog × AuditLog
  | .act .. => (st.audit, st.auth.audit)
  | _ => (st.auth.audit, st.audit)

def Call.actor : Call → String
  | .login l => l.username
  | .logout _ username _ => username
  | .act _ _ _ actor _ _ => actor

def Call.target : Call → Option String
  | .act _ _ _ _ target _ => some target
  | _ => none

def Call.time : Call → BitVec 64
  | .login l => l.now
  | .logout _ _ now => now
  | .act _ _ _ _ _ now => now

/-- Somebody was logged in or out, or the action was applied. -/
def TookEffect (st : Panel) : Call → Answer → Prop
  | .logout token _ _, _ => (st.auth.sessions.sessions.lookup token).isSome
  | _, .login outcome => full outcome = true
  | _, .acted outcome => outcome = .applied
  | _, .loggedOut => False

def Banned : Call → Answer → Prop
  | .act _ _ (.ban _ _) _ _ _, .acted outcome => outcome = .applied
  | _, _ => False

/-- The call left one entry of its own, which tells whether it took effect. -/
structure Recorded (st : Panel) (call : Call) (next : Panel) (answer : Answer) : Prop where
  entry : ∃ e : AuditEntry, (logs next call).1.entries = (logs st call).1.entries ++ [e] ∧
    e.actor = call.actor ∧ e.target = call.target ∧ e.timestamp = call.time ∧
    (e.success = true ↔ TookEffect st call answer)
  other : (logs next call).2 = (logs st call).2
  banned : Banned call answer → ∃ ban, next.bans = st.bans ++ [ban]
  unbanned : ¬Banned call answer → next.bans = st.bans

def Wrong (verify : Verifiers) (l : Login) : Prop :=
  verify.password l.attempt.password l.account.passwordHash = false ∨
    ∃ secret ∈ l.account.totpSecret, ∃ code ∈ l.attempt.totpCode, verify.totp secret code l.now = false

/-- The password is right, and a second factor is enrolled and was left out. -/
def Halfway (verify : Verifiers) (l : Login) : Prop :=
  verify.password l.attempt.password l.account.passwordHash = true ∧
    l.account.totpSecret.isSome ∧ l.attempt.totpCode = none

/-- The login is locked out, fails, or succeeds; no addition it carries out panics. -/
def Concludes (mode : Overflow) (verify : Verifiers) (st : AuthService) (l : Login) : Prop :=
  st.isLocked mode l.username l.now = some true ∨
    st.isLocked mode l.username l.now = some false ∧ ¬Halfway verify l ∧
      (Wrong verify l → (mode.add (st.rate l.username).windowStart st.lockoutWindow).isSome) ∧
      (¬Wrong verify l → (mode.add l.now st.sessions.absoluteTtl).isSome ∧
        (mode.add l.now st.sessions.idleTtl).isSome)

/-- The call is not one of those that leave no entry, or a false one. -/
def Traced (mode : Overflow) (verify : Verifiers) (st : Panel) : Call → Prop
  | .login l => Concludes mode verify st.auth l
  | .logout token _ _ => (st.auth.sessions.sessions.lookup token).isSome
  | .act permissions online action actor target _ =>
    match action with
    | .message _ => permissions actor playersMessage = true → online target = true
    | .warn _ => permissions actor playersWarn = true → online target = true
    | .kick _ => permissions actor playersKick = true → online target = true
    | .ban _ _ => True

variable {mode : Overflow} {verify : Verifiers} {st : AuthService} {l : Login} {now : BitVec 64}

/-- The login left an entry that tells whether it was fully successful. -/
def Entered (st : AuthService) (l : Login) (x : AuthService × AuthOutcome) : Prop :=
  ∃ e : AuditEntry, x.1.audit = st.audit.record e ∧ e.actor = l.username ∧ e.target = none ∧
    e.timestamp = l.now ∧ (e.success = true ↔ full x.2 = true)

theorem recordFailure_entered (hmax : 0 < st.maxAttempts.toNat)
    (hlocked : st.isLocked mode l.username l.now = some false)
    (hadd : (mode.add (st.rate l.username).windowStart st.lockoutWindow).isSome)
    (sourceIp : Option String) (detail : String) :
    Entered st l (st.recordFailure mode l.username l.now sourceIp detail) := by
  obtain ⟨stop, hadd⟩ := Option.isSome_iff_exists.mp hadd
  have hrate : (st.limits.lookup l.username).getD .default = st.rate l.username := rfl
  have hroom : ((if stop ≤ l.now then ⟨0, l.now⟩ else st.rate l.username) :
      RateState).failures.toNat + 1 < 2 ^ 32 := by
    split
    · change 0 + 1 < 2 ^ 32
      omega
    · rename_i hnow
      have hunder := AuthService.failures_lt hlocked hadd hmax (Nat.lt_of_not_le hnow)
      have hlt := st.maxAttempts.isLt
      omega
  obtain ⟨failures, hfailures, -⟩ := add_one_of_room mode hroom
  simp only [AuthService.recordFailure, hrate, hadd, hfailures]
  exact ⟨_, rfl, rfl, rfl, rfl, by simp [full]⟩

theorem recordFailure_silent
    (hadd : mode.add (st.rate l.username).windowStart st.lockoutWindow = none)
    (sourceIp : Option String) (detail : String) :
    (st.recordFailure mode l.username l.now sourceIp detail).1.audit = st.audit := by
  have hrate : (st.limits.lookup l.username).getD .default = st.rate l.username := rfl
  simp only [AuthService.recordFailure, hrate, hadd]

theorem withSession_cases {token userId : String} {fully : Bool}
    {next : AuthService → Session → AuthService × AuthOutcome} :
    ((mode.add now st.sessions.absoluteTtl).isSome ∧ (mode.add now st.sessions.idleTtl).isSome ∧
      ∃ sessions session, st.withSession mode token userId now fully next =
        next { st with sessions } session) ∨
    (¬((mode.add now st.sessions.absoluteTtl).isSome ∧ (mode.add now st.sessions.idleTtl).isSome) ∧
      (st.withSession mode token userId now fully next).1.audit = st.audit) := by
  unfold AuthService.withSession SessionStore.create
  cases mode.add now st.sessions.absoluteTtl with
  | none => exact .inr ⟨by simp, rfl⟩
  | some absolute =>
    cases mode.add now st.sessions.idleTtl with
    | none => exact .inr ⟨by simp, rfl⟩
    | some idle => exact .inl ⟨rfl, rfl, _, _, rfl⟩

theorem not_halfway (hwrong : Wrong verify l) : ¬Halfway verify l := by
  intro hhalf
  obtain ⟨hpassword, -, hcode⟩ := hhalf
  obtain hbad | ⟨secret, -, code, hsome, -⟩ := hwrong
  · rw [hpassword] at hbad
    cases hbad
  · rw [hcode] at hsome
    cases hsome

theorem concludes_wrong (hlocked : st.isLocked mode l.username l.now = some false)
    (hwrong : Wrong verify l) : Concludes mode verify st l ↔
      (mode.add (st.rate l.username).windowStart st.lockoutWindow).isSome := by
  simp [Concludes, hlocked, hwrong, not_halfway hwrong]

theorem concludes_right (hlocked : st.isLocked mode l.username l.now = some false)
    (hwrong : ¬Wrong verify l) (hhalf : ¬Halfway verify l) : Concludes mode verify st l ↔
      (mode.add l.now st.sessions.absoluteTtl).isSome ∧
        (mode.add l.now st.sessions.idleTtl).isSome := by
  simp [Concludes, hlocked, hwrong, hhalf]

/-- What a login does about the log, and whether that is to be expected. -/
def Settled (mode : Overflow) (verify : Verifiers) (st : AuthService) (l : Login)
    (x : AuthService × AuthOutcome) : Prop :=
  Concludes mode verify st l ∧ Entered st l x ∨
    ¬Concludes mode verify st l ∧ x.1.audit = st.audit

theorem wrong_settled (hmax : 0 < st.maxAttempts.toNat)
    (hlocked : st.isLocked mode l.username l.now = some false) (hwrong : Wrong verify l)
    (sourceIp : Option String) (detail : String) :
    Settled mode verify st l (st.recordFailure mode l.username l.now sourceIp detail) := by
  unfold Settled
  rw [concludes_wrong hlocked hwrong]
  cases hadd : mode.add (st.rate l.username).windowStart st.lockoutWindow with
  | none => exact .inr ⟨by simp, recordFailure_silent hadd _ _⟩
  | some stop =>
    have hsome := Option.isSome_of_mem hadd
    exact .inl ⟨rfl, recordFailure_entered hmax hlocked hsome _ _⟩

theorem right_settled (hlocked : st.isLocked mode l.username l.now = some false)
    (hwrong : ¬Wrong verify l) (hhalf : ¬Halfway verify l) {token userId : String} {fully : Bool}
    {outcome : Session → AuthOutcome} (houtcome : ∀ session, full (outcome session) = true)
    (sourceIp : Option String) (detail : String) :
    Settled mode verify st l (st.withSession mode token userId l.now fully fun st session ↦
      (st.recordSuccess l.username l.now sourceIp detail, outcome session)) := by
  unfold Settled
  rw [concludes_right hlocked hwrong hhalf]
  obtain ⟨habsolute, hidle, sessions, session, heq⟩ | ⟨hnot, hsilent⟩ :=
    @withSession_cases mode st l.now token userId fully (fun st session ↦
      (st.recordSuccess l.username l.now sourceIp detail, outcome session))
  · rw [heq]
    refine .inl ⟨⟨habsolute, hidle⟩, _, rfl, rfl, rfl, rfl, ?_⟩
    exact iff_of_true rfl (houtcome session)
  · exact .inr ⟨hnot, hsilent⟩

theorem halfway_settled (hlocked : st.isLocked mode l.username l.now = some false)
    (hhalf : Halfway verify l) {token userId : String} {fully : Bool}
    {outcome : Session → AuthOutcome} :
    Settled mode verify st l (st.withSession mode token userId l.now fully fun st session ↦
      (st, outcome session)) := by
  refine .inr ⟨by simp [Concludes, hlocked, hhalf], ?_⟩
  obtain ⟨-, -, sessions, session, heq⟩ | ⟨-, hsilent⟩ :=
    @withSession_cases mode st l.now token userId fully (fun st session ↦ (st, outcome session))
  · rw [heq]
  · exact hsilent

/-- A login either concludes with an entry, or stops without one. -/
theorem login_settled (hmax : 0 < st.maxAttempts.toNat) :
    Settled mode verify st l (Attempts.step mode verify st l) := by
  unfold Attempts.step AuthService.login
  cases hlocked : st.isLocked mode l.account.username l.now with
  | none => exact .inr ⟨by simp [Concludes, Login.username, hlocked], rfl⟩
  | some locked =>
    cases locked with
    | true => exact .inl ⟨.inl hlocked, _, rfl, rfl, rfl, rfl, by simp [full]⟩
    | false =>
      dsimp only
      cases hpassword : verify.password l.attempt.password l.account.passwordHash with
      | false => exact wrong_settled hmax hlocked (.inl hpassword) _ _
      | true =>
        simp only [Bool.not_true, Bool.false_eq_true, if_false]
        cases hsecret : l.account.totpSecret with
        | none =>
          refine right_settled hlocked ?_ ?_ (fun _ ↦ rfl) _ _
          · simp [Wrong, hpassword, hsecret]
          · simp [Halfway, hsecret]
        | some secret =>
          cases hcode : l.attempt.totpCode with
          | none => exact halfway_settled hlocked ⟨hpassword, by rw [hsecret]; rfl, hcode⟩
          | some code =>
            cases htotp : verify.totp secret code l.now with
            | false =>
              simp only [htotp, Bool.false_eq_true, if_false]
              exact wrong_settled hmax hlocked (.inr ⟨secret, hsecret, code, hcode, htotp⟩) _ _
            | true =>
              simp only [htotp, if_true]
              refine right_settled hlocked ?_ ?_ (fun _ ↦ rfl) _ _
              · simp [Wrong, hpassword, hsecret, hcode, htotp]
              · simp [Halfway, hcode]

section Steps

variable {permissions : String → String → Bool} {online : String → Bool} {actor target : String}
  {st : Panel} {call : Call}

theorem append_singleton_ne {α : Type} (a : α) (l : List α) : l ≠ l ++ [a] := by
  intro h
  have hlength := congrArg List.length h
  rw [List.length_append, List.length_singleton] at hlength
  omega

theorem login_recorded (l : Login) (hmax : 0 < st.auth.maxAttempts.toNat)
    (hroom : st.auth.audit.entries.length < st.auth.audit.capacity) :
    Recorded st (.login l) (step mode verify st (.login l)).1 (step mode verify st (.login l)).2 ↔
      Concludes mode verify st.auth l := by
  obtain ⟨hconcludes, e, haudit, hactor, htarget, htime, hsuccess⟩ | ⟨hnot, hsilent⟩ :=
    @login_settled mode verify st.auth l hmax
  · rw [AuditLog.record_room hroom] at haudit
    refine iff_of_true ⟨⟨e, congrArg AuditLog.entries haudit, hactor, htarget, htime, hsuccess⟩,
      rfl, False.elim, fun _ ↦ rfl⟩ hconcludes
  · refine iff_of_false (fun hrecorded ↦ ?_) hnot
    obtain ⟨e, hentry, -⟩ := hrecorded.entry
    change (Attempts.step mode verify st.auth l).1.audit.entries = _ at hentry
    rw [hsilent] at hentry
    exact append_singleton_ne e _ hentry

theorem logout_recorded (token username : String) (now : BitVec 64)
    (hroom : st.auth.audit.entries.length < st.auth.audit.capacity) :
    Recorded st (.logout token username now) (step mode verify st (.logout token username now)).1
        (step mode verify st (.logout token username now)).2 ↔
      (st.auth.sessions.sessions.lookup token).isSome := by
  have hentries : (step mode verify st (.logout token username now)).1.auth.audit.entries =
      st.auth.audit.entries ++ [⟨username, .logout, none, now, true, "logout", none⟩] :=
    congrArg AuditLog.entries (AuditLog.record_room hroom _)
  constructor
  · intro hrecorded
    obtain ⟨e, hentry, -, -, -, hsuccess⟩ := hrecorded.entry
    obtain rfl := List.singleton_inj.mp (List.append_cancel_left (hentries.symm.trans hentry))
    exact hsuccess.mp rfl
  · intro hsome
    exact ⟨⟨_, hentries, rfl, rfl, rfl, iff_of_true rfl hsome⟩, rfl, False.elim, fun _ ↦ rfl⟩

def Noted (pa : PlayerActions) (actor target : String) (now : BitVec 64)
    (x : PlayerActions × ActionOutcome) : Prop :=
  ∃ e : AuditEntry, x.1.audit.entries = pa.audit.entries ++ [e] ∧ e.actor = actor ∧
    e.target = some target ∧ e.timestamp = now ∧ (e.success = true ↔ x.2 = .applied)

theorem onPlayer_noted {pa : PlayerActions} (hroom : pa.audit.entries.length < pa.audit.capacity)
    (permission : String) (action : AuditAction) (detail : String) (now : BitVec 64) :
    (Noted pa actor target now (pa.onPlayer permission action detail actor target now) ↔
      (pa.permissions actor permission = true → pa.online target = true)) ∧
    (pa.onPlayer permission action detail actor target now).1.bans = pa.bans := by
  unfold PlayerActions.onPlayer PlayerActions.authorize
  cases hpermitted : pa.permissions actor permission with
  | false =>
    refine ⟨iff_of_true ⟨_, congrArg AuditLog.entries (AuditLog.record_room hroom _), rfl, rfl, rfl,
      ?_⟩ (fun h ↦ by cases h), rfl⟩
    exact iff_of_false Bool.noConfusion ActionOutcome.noConfusion
  | true =>
    cases honline : pa.online target with
    | false =>
      simp only [if_true, honline, Bool.not_false]
      refine ⟨iff_of_false (fun hnoted ↦ ?_) (by simp), trivial⟩
      obtain ⟨e, hentry, -⟩ := hnoted
      exact append_singleton_ne e _ hentry
    | true =>
      simp only [if_true, honline, Bool.not_true, Bool.false_eq_true, if_false]
      exact ⟨iff_of_true ⟨_, congrArg AuditLog.entries (AuditLog.record_room hroom _), rfl, rfl,
        rfl, iff_of_true rfl rfl⟩ (fun _ ↦ trivial), trivial⟩

theorem recorded_of_noted {action : Action} {now : BitVec 64}
    (hban : ∀ outcome, ¬Banned (.act permissions online action actor target now) (.acted outcome))
    (hbans : (act ⟨st.audit, permissions, st.bans, online⟩ actor target now action).1.bans = st.bans) :
    Recorded st (.act permissions online action actor target now)
        (step mode verify st (.act permissions online action actor target now)).1
        (step mode verify st (.act permissions online action actor target now)).2 ↔
      Noted ⟨st.audit, permissions, st.bans, online⟩ actor target now
        (act ⟨st.audit, permissions, st.bans, online⟩ actor target now action) := by
  constructor
  · intro hrecorded
    exact hrecorded.entry
  · intro hnoted
    exact ⟨hnoted, rfl, fun hbanned ↦ absurd hbanned (hban _), fun _ ↦ hbans⟩

theorem ban_recorded (reason : String) (duration : BanDuration) (now : BitVec 64)
    (hroom : st.audit.entries.length < st.audit.capacity) :
    Recorded st (.act permissions online (.ban reason duration) actor target now)
      (step mode verify st (.act permissions online (.ban reason duration) actor target now)).1
      (step mode verify st (.act permissions online (.ban reason duration) actor target now)).2 := by
  have hentry (e : AuditEntry) := congrArg AuditLog.entries (AuditLog.record_room hroom e)
  simp only [step, act, PlayerActions.ban, PlayerActions.authorize]
  cases hpermitted : permissions actor playersBan with
  | false =>
    refine ⟨⟨_, hentry _, rfl, rfl, rfl, ?_⟩, rfl, fun hbanned ↦ ?_, fun _ ↦ rfl⟩
    · exact iff_of_false Bool.noConfusion ActionOutcome.noConfusion
    · cases hbanned
  | true =>
    refine ⟨⟨_, hentry _, rfl, rfl, rfl, iff_of_true rfl rfl⟩, rfl, fun _ ↦ ⟨_, rfl⟩, fun hnot ↦ ?_⟩
    exact absurd rfl hnot

theorem step_recorded (hmax : 0 < st.auth.maxAttempts.toNat)
    (hroom : (logs st call).1.entries.length < (logs st call).1.capacity) :
    Recorded st call (step mode verify st call).1 (step mode verify st call).2 ↔
      Traced mode verify st call := by
  cases call with
  | login l => exact login_recorded l hmax hroom
  | logout token username now => exact logout_recorded token username now hroom
  | act permissions online action actor target now =>
    cases action with
    | message body =>
      have hnoted := @onPlayer_noted actor target ⟨st.audit, permissions, st.bans, online⟩ hroom
        playersMessage .consoleCommand "message sent" now
      refine (recorded_of_noted (fun _ ↦ id) ?_).trans hnoted.1
      exact hnoted.2
    | warn reason =>
      have hnoted := @onPlayer_noted actor target ⟨st.audit, permissions, st.bans, online⟩ hroom
        playersWarn .permissionChange ("warned: " ++ reason) now
      refine (recorded_of_noted (fun _ ↦ id) ?_).trans hnoted.1
      exact hnoted.2
    | kick reason =>
      have hnoted := @onPlayer_noted actor target ⟨st.audit, permissions, st.bans, online⟩ hroom
        playersKick .kick ("kicked: " ++ reason) now
      refine (recorded_of_noted (fun _ ↦ id) ?_).trans hnoted.1
      exact hnoted.2
    | ban reason duration =>
      exact iff_of_true (ban_recorded reason duration now hroom) trivial

def Grows (log log' : AuditLog) : Prop := log' = log ∨ ∃ e, log' = log.record e

theorem Grows.room {log log' : AuditLog} (h : Grows log log') :
    log'.capacity = log.capacity ∧ log'.entries.length ≤ log.entries.length + 1 := by
  obtain rfl | ⟨e, rfl⟩ := h
  · exact ⟨rfl, Nat.le_succ _⟩
  · unfold AuditLog.record
    split
    · simp
    · simp

theorem authorize_grows (pa : PlayerActions) (actor permission target : String) (now : BitVec 64) :
    pa.authorize actor permission target now = (pa, .applied) ∨
      ∃ e, pa.authorize actor permission target now =
        ({ pa with audit := pa.audit.record e }, .denied permission) := by
  unfold PlayerActions.authorize
  split
  · exact .inl rfl
  · exact .inr ⟨_, rfl⟩

theorem onPlayer_grows (pa : PlayerActions) (permission : String) (action : AuditAction)
    (detail actor target : String) (now : BitVec 64) :
    Grows pa.audit (pa.onPlayer permission action detail actor target now).1.audit := by
  unfold PlayerActions.onPlayer
  obtain heq | ⟨e, heq⟩ := authorize_grows pa actor permission target now
  · rw [heq]
    dsimp only
    split
    · exact .inl rfl
    · exact .inr ⟨_, rfl⟩
  · rw [heq]
    exact .inr ⟨e, rfl⟩

theorem act_grows (pa : PlayerActions) (actor target : String) (now : BitVec 64) (action : Action) :
    Grows pa.audit (act pa actor target now action).1.audit := by
  cases action with
  | message body => exact onPlayer_grows _ _ _ _ _ _ _
  | warn reason => exact onPlayer_grows _ _ _ _ _ _ _
  | kick reason => exact onPlayer_grows _ _ _ _ _ _ _
  | ban reason duration =>
    simp only [act, PlayerActions.ban]
    obtain heq | ⟨e, heq⟩ := authorize_grows pa actor playersBan target now
    · rw [heq]
      exact .inr ⟨_, rfl⟩
    · rw [heq]
      exact .inr ⟨e, rfl⟩

theorem step_grows (mode : Overflow) (verify : Verifiers) (call : Call)
    (hmax : 0 < st.auth.maxAttempts.toNat) :
    Grows st.auth.audit (step mode verify st call).1.auth.audit ∧
      Grows st.audit (step mode verify st call).1.audit ∧
      (step mode verify st call).1.auth.maxAttempts = st.auth.maxAttempts := by
  cases call with
  | login l =>
    refine ⟨?_, .inl rfl, (step_limits mode verify st.auth l).1⟩
    obtain ⟨-, e, haudit, -⟩ | ⟨-, hsilent⟩ := @login_settled mode verify st.auth l hmax
    · exact .inr ⟨e, haudit⟩
    · exact .inl hsilent
  | logout token username now => exact ⟨.inr ⟨_, rfl⟩, .inl rfl, rfl⟩
  | act permissions online action actor target now =>
    exact ⟨.inl rfl, act_grows ⟨st.audit, permissions, st.bans, online⟩ _ _ _ _, rfl⟩

def Room (st : Panel) (n : ℕ) : Prop :=
  st.auth.audit.entries.length + n ≤ st.auth.audit.capacity ∧
    st.audit.entries.length + n ≤ st.audit.capacity

end Steps

theorem run_recorded {st : Panel} (hmax : 0 < st.auth.maxAttempts.toNat) (calls : List Call)
    (hroom : Room st calls.length) :
    (∀ x ∈ trace (step mode verify) st calls,
        Recorded x.1 x.2 (step mode verify x.1 x.2).1 (step mode verify x.1 x.2).2) ↔
      ∀ x ∈ trace (step mode verify) st calls, Traced mode verify x.1 x.2 := by
  induction calls generalizing st with
  | nil => exact iff_of_true (List.forall_mem_nil _) (List.forall_mem_nil _)
  | cons call calls ih =>
    obtain ⟨hauth, haudit⟩ := hroom
    rw [List.length_cons] at hauth haudit
    obtain ⟨hgrows, hgrows', hattempts⟩ := @step_grows st mode verify call hmax
    have hnext : Room (step mode verify st call).1 calls.length := by
      obtain ⟨hcapacity, hlength⟩ := hgrows.room
      obtain ⟨hcapacity', hlength'⟩ := hgrows'.room
      exact ⟨by omega, by omega⟩
    have hfirst : (logs st call).1.entries.length < (logs st call).1.capacity := by
      cases call with
      | act =>
        change st.audit.entries.length < st.audit.capacity
        omega
      | login =>
        change st.auth.audit.entries.length < st.auth.audit.capacity
        omega
      | logout =>
        change st.auth.audit.entries.length < st.auth.audit.capacity
        omega
    rw [trace, List.forall_mem_cons, List.forall_mem_cons, ih (by rwa [hattempts]) hnext]
    exact and_congr_left fun _ ↦ step_recorded hmax hfirst

def panel (authCapacity capacity : ℕ) (maxAttempts : BitVec 32) (lockoutWindow : BitVec 64)
    (bans : List BanRecord) : Panel :=
  ⟨service authCapacity maxAttempts lockoutWindow, .new capacity, bans⟩

theorem service_attempts (capacity : ℕ) (maxAttempts : BitVec 32) (lockoutWindow : BitVec 64) :
    0 < (service capacity maxAttempts lockoutWindow).maxAttempts.toNat := by
  change 0 < (if maxAttempts ≤ 1 then 1 else maxAttempts : BitVec 32).toNat
  split
  · exact Nat.one_pos
  · rename_i hmany
    exact Nat.lt_of_lt_of_le Nat.one_pos (Nat.le_of_lt (Nat.lt_of_not_le hmany))

/-- While the logs have room, every call leaves its entry exactly when every call concludes. -/
theorem calls_recorded_iff (mode : Overflow) (verify : Verifiers) (authCapacity capacity : ℕ)
    (maxAttempts : BitVec 32) (lockoutWindow : BitVec 64) (bans : List BanRecord)
    (calls : List Call) (hauth : calls.length ≤ max authCapacity 1)
    (hcapacity : calls.length ≤ max capacity 1) :
    (∀ x ∈ trace (step mode verify) (panel authCapacity capacity maxAttempts lockoutWindow bans)
        calls, Recorded x.1 x.2 (step mode verify x.1 x.2).1 (step mode verify x.1 x.2).2) ↔
      ∀ x ∈ trace (step mode verify) (panel authCapacity capacity maxAttempts lockoutWindow bans)
        calls, Traced mode verify x.1 x.2 := by
  refine run_recorded (service_attempts _ _ _) calls ⟨?_, ?_⟩
  · exact (Nat.zero_add _).trans_le hauth
  · exact (Nat.zero_add _).trans_le hcapacity

end Completeness

section Examples

def adminOnly (actor _permission : String) : Bool := actor = "admin"

def nobody (_ : String) : Bool := false

def desk : Panel := panel 8 8 3 100 []

/-- A bad password, a refused kick and a ban of somebody who is away. -/
def shift : List Call :=
  [.login (attemptAt 1000), .act adminOnly nobody (.kick "spam") "guest" "bob" 1001,
    .act adminOnly nobody (.ban "spam" .permanent) "admin" "bob" 1002]

theorem shift_recorded : (trace (step .panics plain) desk shift).Forall (fun x ↦
    Recorded x.1 x.2 (step .panics plain x.1 x.2).1 (step .panics plain x.1 x.2).2) := by
  refine List.forall_iff_forall_mem.mpr ?_
  refine (calls_recorded_iff .panics plain 8 8 3 100 [] shift (by decide) (by decide)).mpr ?_
  have hwrong : Wrong plain (attemptAt 1000) := .inl (by decide)
  refine List.forall_mem_cons.mpr ⟨?_, List.forall_mem_cons.mpr ⟨?_, List.forall_mem_cons.mpr
    ⟨trivial, List.forall_mem_nil _⟩⟩⟩
  · exact .inr ⟨by decide, not_halfway hwrong, fun _ ↦ by decide, fun hright ↦ absurd hwrong hright⟩
  · intro hpermitted
    exact absurd hpermitted (by decide)

def enrolled : Login :=
  ⟨⟨"id-eve", "eve", "hash", some "secret"⟩, ⟨"eve", "s3cret", none, none⟩, 1000, "t"⟩

/-- A right password without the second factor and a permitted kick of somebody who is away leave no
entry; the logout of a session that there is not is noted as a success. -/
theorem calls_unrecorded :
    [Call.login enrolled, .act adminOnly nobody (.kick "spam") "admin" "bob" 1001,
      .logout "no such token" "eve" 1002].Forall (fun call ↦
        ¬Recorded desk call (step .panics plain desk call).1 (step .panics plain desk call).2) := by
  refine List.forall_iff_forall_mem.mpr ?_
  refine List.forall_mem_cons.mpr ⟨?_, List.forall_mem_cons.mpr ⟨?_, List.forall_mem_singleton.mpr
    ?_⟩⟩
  · rw [step_recorded (by decide) (by decide)]
    intro hconcludes
    obtain hlocked | ⟨-, hhalf, -⟩ := hconcludes
    · exact absurd hlocked (by decide)
    · exact hhalf ⟨by decide, rfl, rfl⟩
  · rw [step_recorded (by decide) (by decide)]
    intro honline
    exact absurd (honline (by decide)) (by decide)
  · rw [step_recorded (by decide) (by decide)]
    intro hsome
    change (desk.auth.sessions.sessions.lookup "no such token").isSome = true at hsome
    exact absurd hsome (by decide)

end Examples

end Aldivine.Aegis.Actions
