import Aldivine.Foundation.Execution
import Aldivine.Foundation.Machine
import Aldivine.Foundation.Table

namespace Aldivine.Aegis.Sessions

open Foundation.Execution Foundation.Machine Foundation.Table

structure Session where
  token : String
  userId : String
  issuedAt : BitVec 64
  lastActivity : BitVec 64
  absoluteExpires : BitVec 64
  idleExpires : BitVec 64
  fullyAuthenticated : Bool
deriving DecidableEq

def Session.isLive (s : Session) (now : BitVec 64) : Bool :=
  decide (now < s.absoluteExpires) && decide (now < s.idleExpires)

structure SessionStore where
  sessions : AList (fun _ : String ↦ Session)
  absoluteTtl : BitVec 64
  idleTtl : BitVec 64

/-- `token` is the string that `generate_token` draws. -/
inductive Call
  | create (token userId : String) (now : BitVec 64) (fullyAuthenticated : Bool)
  | validate (token : String) (now : BitVec 64)
  | invalidate (token : String)
  | invalidateUser (userId : String)
  | gc (now : BitVec 64)
deriving DecidableEq

inductive Answer
  | created (s : Session)
  | validated (s : Option Session)
  | removed (found : Bool)
  | count (n : ℕ)
  | panicked
deriving DecidableEq

def defaultAbsoluteTtl : BitVec 64 := 8 * 60 * 60

def defaultIdleTtl : BitVec 64 := 30 * 60

namespace SessionStore

def withTtls (absoluteTtl idleTtl : BitVec 64) : SessionStore := ⟨∅, absoluteTtl, idleTtl⟩

def new : SessionStore := withTtls defaultAbsoluteTtl defaultIdleTtl

def create (mode : Overflow) (st : SessionStore) (token userId : String) (now : BitVec 64)
    (fullyAuthenticated : Bool) : SessionStore × Answer :=
  match mode.add now st.absoluteTtl, mode.add now st.idleTtl with
  | some absoluteExpires, some idleExpires =>
    let session : Session :=
      { token, userId, issuedAt := now, lastActivity := now, absoluteExpires, idleExpires,
        fullyAuthenticated }
    ({ st with sessions := st.sessions.insert token session }, .created session)
  | _, _ => (st, .panicked)

/-- The last activity is written before the idle deadline is computed. -/
def validate (mode : Overflow) (st : SessionStore) (token : String) (now : BitVec 64) :
    SessionStore × Answer :=
  match st.sessions.lookup token with
  | none => (st, .validated none)
  | some s =>
    if s.isLive now then
      match mode.add now st.idleTtl with
      | some idleExpires =>
        let s := { s with lastActivity := now, idleExpires }
        ({ st with sessions := st.sessions.insert token s }, .validated (some s))
      | none =>
        ({ st with sessions := st.sessions.insert token { s with lastActivity := now } }, .panicked)
    else ({ st with sessions := st.sessions.erase token }, .validated none)

def invalidate (st : SessionStore) (token : String) : SessionStore × Answer :=
  ({ st with sessions := st.sessions.erase token }, .removed (st.sessions.lookup token).isSome)

/-- The loop that `invalidate_user` and `gc` share: the tokens are collected, then removed. -/
def removeWhere (p : Session → Bool) (st : SessionStore) : SessionStore × Answer :=
  let toRemove := (st.sessions.entries.filter (fun e ↦ p e.2)).map Sigma.fst
  ({ st with sessions := toRemove.foldl (fun sessions t ↦ sessions.erase t) st.sessions },
    .count toRemove.length)

def invalidateUser (st : SessionStore) (userId : String) : SessionStore × Answer :=
  st.removeWhere (fun s ↦ s.userId == userId)

def gc (st : SessionStore) (now : BitVec 64) : SessionStore × Answer :=
  st.removeWhere (fun s ↦ !s.isLive now)

end SessionStore

def step (mode : Overflow) (st : SessionStore) : Call → SessionStore × Answer
  | .create token userId now fullyAuthenticated => st.create mode token userId now fullyAuthenticated
  | .validate token now => st.validate mode token now
  | .invalidate token => st.invalidate token
  | .invalidateUser userId => st.invalidateUser userId
  | .gc now => st.gc now

section History

abbrev Event := Call × Answer

structure Creation where
  userId : String
  now : BitVec 64
  fullyAuthenticated : Bool
deriving DecidableEq

def creation (t : String) : Event → Option Creation
  | (.create token userId now fully, .created _) =>
    if token = t then some ⟨userId, now, fully⟩ else none
  | _ => none

def creationOf (h : List Event) (t : String) : Option Creation := latest (creation t) h

def sinceCreation (h : List Event) (t : String) : List Event :=
  since (fun x ↦ (creation t x).isSome) h

/-- The session was created, or a validation of it succeeded, at this time. -/
def activity (t : String) : Event → Option (BitVec 64)
  | (.create token _ now _, .created _) => if token = t then some now else none
  | (.validate token now, .validated (some _)) => if token = t then some now else none
  | _ => none

def activityOf (h : List Event) (t : String) : Option (BitVec 64) := latest (activity t) h

def Ends (t userId : String) (call : Call) : Prop :=
  call = .invalidate t ∨ call = .invalidateUser userId

def Valid (absoluteTtl idleTtl : BitVec 64) (h : List Event) (t : String) (now : BitVec 64) :
    Prop :=
  ∃ c, creationOf h t = some c ∧ (∀ x ∈ sinceCreation h t, ¬Ends t c.userId x.1) ∧
    now.toNat < c.now.toNat + absoluteTtl.toNat ∧
    ∀ a ∈ activityOf h t, now.toNat < a.toNat + idleTtl.toNat

end History

def Call.time : Call → Option (BitVec 64)
  | .create _ _ now _ => some now
  | .validate _ now => some now
  | .gc now => some now
  | .invalidate _ => none
  | .invalidateUser _ => none

def Ordered (calls : List Call) : Prop :=
  (calls.filterMap Call.time).Pairwise (fun a b ↦ a.toNat ≤ b.toNat)

def Fits (st : SessionStore) : Call → Prop
  | .create _ _ now _ =>
    now.toNat + st.absoluteTtl.toNat < 2 ^ 64 ∧ now.toNat + st.idleTtl.toNat < 2 ^ 64
  | .validate t now => ∀ s ∈ st.sessions.lookup t, s.isLive now = true →
    now.toNat + st.idleTtl.toNat < 2 ^ 64
  | _ => True

instance (st : SessionStore) (call : Call) : Decidable (Fits st call) :=
  match call with
  | .create _ _ now _ => inferInstanceAs (Decidable
      (now.toNat + st.absoluteTtl.toNat < 2 ^ 64 ∧ now.toNat + st.idleTtl.toNat < 2 ^ 64))
  | .validate t now => inferInstanceAs (Decidable
      (∀ s ∈ st.sessions.lookup t, s.isLive now = true → now.toNat + st.idleTtl.toNat < 2 ^ 64))
  | .invalidate _ => inferInstanceAs (Decidable True)
  | .invalidateUser _ => inferInstanceAs (Decidable True)
  | .gc _ => inferInstanceAs (Decidable True)

end Aldivine.Aegis.Sessions
