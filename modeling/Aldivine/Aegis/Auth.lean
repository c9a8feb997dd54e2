import Aldivine.Aegis.Sessions

namespace Aldivine.Aegis.Auth

open Foundation.Execution Foundation.Machine Foundation.Table Sessions

section Audit

inductive AuditAction
  | authentication
  | failedLogin
  | logout
  | kick
  | ban
  | permissionChange
  | resourceRestart
  | serverRestart
  | configChange
  | deployment
  | consoleCommand
  | entitlementChange
deriving DecidableEq

structure AuditEntry where
  actor : String
  action : AuditAction
  target : Option String
  timestamp : BitVec 64
  success : Bool
  detail : String
  sourceIp : Option String
deriving DecidableEq

structure AuditLog where
  entries : List AuditEntry
  capacity : ℕ
deriving DecidableEq

namespace AuditLog

def new (capacity : ℕ) : AuditLog := ⟨[], max capacity 1⟩

/-- The oldest entry is evicted from a full log. -/
def record (log : AuditLog) (entry : AuditEntry) : AuditLog :=
  if log.capacity ≤ log.entries.length then
    { log with entries := log.entries.tail ++ [entry] }
  else { log with entries := log.entries ++ [entry] }

theorem record_room {log : AuditLog} (hroom : log.entries.length < log.capacity)
    (entry : AuditEntry) : log.record entry = { log with entries := log.entries ++ [entry] } :=
  if_neg (Nat.not_le.mpr hroom)

end AuditLog

end Audit

inductive AuthOutcome
  | success (session : Session)
  | secondFactorRequired (session : Session)
  | secondFactorAccepted (session : Session)
  | invalidCredentials
  | lockedOut (retryAfterSecs : BitVec 64)
  | panicked
deriving DecidableEq

structure LoginAttempt where
  username : String
  password : String
  totpCode : Option String
  sourceIp : Option String
deriving DecidableEq

structure AegisAccount where
  id : String
  username : String
  passwordHash : String
  totpSecret : Option String
deriving DecidableEq

structure RateState where
  failures : BitVec 32
  windowStart : BitVec 64
deriving DecidableEq

def RateState.default : RateState := ⟨0, 0⟩

structure AuthService where
  sessions : SessionStore
  audit : AuditLog
  limits : AList (fun _ : String ↦ RateState)
  maxAttempts : BitVec 32
  lockoutWindow : BitVec 64

structure Verifiers where
  password : String → String → Bool
  totp : String → String → BitVec 64 → Bool

def maxAttempts : BitVec 32 := 5

def lockoutWindowSecs : BitVec 64 := 15 * 60

namespace AuthService

def new (auditCapacity : ℕ) : AuthService :=
  ⟨.new, .new auditCapacity, ∅, Auth.maxAttempts, lockoutWindowSecs⟩

def withLimits (st : AuthService) (maxAttempts : BitVec 32) (lockoutWindow : BitVec 64) :
    AuthService :=
  { st with maxAttempts := if maxAttempts ≤ 1 then 1 else maxAttempts, lockoutWindow }

/-- The end of the window is computed for accounts that are over their budget only. -/
def isLocked (mode : Overflow) (st : AuthService) (username : String) (now : BitVec 64) :
    Option Bool :=
  match st.limits.lookup username with
  | none => some false
  | some state =>
    if st.maxAttempts ≤ state.failures then
      (mode.add state.windowStart st.lockoutWindow).map (fun stop ↦ decide (now < stop))
    else some false

def recordFailure (mode : Overflow) (st : AuthService) (username : String) (now : BitVec 64)
    (sourceIp : Option String) (detail : String) : AuthService × AuthOutcome :=
  let state := (st.limits.lookup username).getD .default
  match mode.add state.windowStart st.lockoutWindow with
  | none => (st, .panicked)
  | some stop =>
    let state := if stop ≤ now then ⟨0, now⟩ else state
    match mode.add state.failures 1 with
    | none => ({ st with limits := st.limits.insert username state }, .panicked)
    | some failures =>
      ({ st with
          limits := st.limits.insert username { state with failures }
          audit := st.audit.record ⟨username, .failedLogin, none, now, false, detail, sourceIp⟩ },
        .invalidCredentials)

def recordSuccess (st : AuthService) (username : String) (now : BitVec 64)
    (sourceIp : Option String) (detail : String) : AuthService :=
  { st with
    limits := st.limits.erase username
    audit := st.audit.record ⟨username, .authentication, none, now, true, detail, sourceIp⟩ }

def withSession (mode : Overflow) (st : AuthService) (token userId : String) (now : BitVec 64)
    (fullyAuthenticated : Bool) (next : AuthService → Session → AuthService × AuthOutcome) :
    AuthService × AuthOutcome :=
  match st.sessions.create mode token userId now fullyAuthenticated with
  | (sessions, .created session) => next { st with sessions } session
  | (sessions, _) => ({ st with sessions }, .panicked)

/-- `token` is the string that `generate_token` draws. -/
def login (mode : Overflow) (verify : Verifiers) (st : AuthService) (account : AegisAccount)
    (attempt : LoginAttempt) (now : BitVec 64) (token : String) : AuthService × AuthOutcome :=
  match st.isLocked mode account.username now with
  | none => (st, .panicked)
  | some true =>
    ({ st with
        audit := st.audit.record ⟨account.username, .failedLogin, none, now, false,
          "account locked out", attempt.sourceIp⟩ },
      .lockedOut st.lockoutWindow)
  | some false =>
    if !verify.password attempt.password account.passwordHash then
      st.recordFailure mode account.username now attempt.sourceIp "bad password"
    else match account.totpSecret with
      | none =>
        st.withSession mode token account.id now true fun st session ↦
          (st.recordSuccess account.username now attempt.sourceIp "password", .success session)
      | some secret =>
        match attempt.totpCode with
        | none =>
          st.withSession mode token account.id now false fun st session ↦
            (st, .secondFactorRequired session)
        | some code =>
          if verify.totp secret code now then
            st.withSession mode token account.id now true fun st session ↦
              (st.recordSuccess account.username now attempt.sourceIp "password+totp",
                .secondFactorAccepted session)
          else st.recordFailure mode account.username now attempt.sourceIp "bad totp"

def logout (st : AuthService) (token username : String) (now : BitVec 64) : AuthService :=
  { st with
    sessions := (st.sessions.invalidate token).1
    audit := st.audit.record ⟨username, .logout, none, now, true, "logout", none⟩ }

/-- How often a name has failed since when, zero from zero without a record. -/
def rate (st : AuthService) (username : String) : RateState :=
  (st.limits.lookup username).getD .default

variable {mode : Overflow} {st : AuthService} {username : String} {now stop : BitVec 64}

/-- A name that is not locked is under its budget until its window is over. -/
theorem failures_lt (hlocked : st.isLocked mode username now = some false)
    (hadd : mode.add (st.rate username).windowStart st.lockoutWindow = some stop)
    (hmax : 0 < st.maxAttempts.toNat) (hnow : now.toNat < stop.toNat) :
    (st.rate username).failures.toNat < st.maxAttempts.toNat := by
  unfold isLocked at hlocked
  unfold rate at hadd ⊢
  cases hlookup : st.limits.lookup username with
  | none => exact hmax
  | some state =>
    rw [hlookup, Option.getD_some] at hadd
    simp only [hlookup, hadd, Option.map_some] at hlocked
    split at hlocked
    · rw [Option.some.injEq, decide_eq_false_iff_not] at hlocked
      exact absurd hnow hlocked
    · rename_i hunder
      exact BitVec.not_le.mp hunder

end AuthService

end Aldivine.Aegis.Auth
