import Aldivine.Foundation.Execution
import Aldivine.Residency.Model

namespace Aldivine.Residency.Handshakes

open Foundation.Execution Foundation.Machine Foundation.Table Model

/-- What the bridge was asked about an asset and what it answered. -/
inductive BridgeCall
  | requested (assetId : String) (outcome : CommitOutcome)
  | confirmed (assetId : String) (answer : Bool)
deriving DecidableEq

def BridgeCall.assetId : BridgeCall → String
  | .requested assetId _ => assetId
  | .confirmed assetId _ => assetId

def BridgeCall.isRequest : BridgeCall → Bool
  | .requested _ _ => true
  | .confirmed _ _ => false

variable {β : Type}

def logged (g : GameCommit β) : GameCommit (β × List BridgeCall) where
  requestResidency b assetId :=
    let (outcome, bridge) := g.requestResidency b.1 assetId
    (outcome, bridge, b.2 ++ [.requested assetId outcome])
  confirmResident b assetId :=
    let (answer, bridge) := g.confirmResident b.1 assetId
    (answer, bridge, b.2 ++ [.confirmed assetId answer])

abbrev Logged (β : Type) := World (β × List BridgeCall)

section Records

variable (mode : Overflow) (g : GameCommit β) (assetId : String)

def callsOf (x : Logged β × Op) : List BridgeCall :=
  ((step mode (logged g) x.1 x.2).1.bridge.2.drop x.1.bridge.2.length).filter
    (·.assetId == assetId)

def opens (x : Logged β × Op) : Bool :=
  (x.1.tracker.requests.lookup assetId).isNone &&
    ((step mode (logged g) x.1 x.2).1.tracker.requests.lookup assetId).isSome

/-- The calls about an asset since it was last taken up. -/
def handshake (tr : List (Logged β × Op)) : List BridgeCall :=
  tr.foldl (fun calls x ↦
    if opens mode g assetId x then callsOf mode g assetId x
    else calls ++ callsOf mode g assetId x) []

end Records

variable {mode : Overflow} {g : GameCommit β} {w : Logged β} {op : Op} {assetId : String}

theorem callsOf_quiet (hlog : (step mode (logged g) w op).1.bridge.2 = w.bridge.2) :
    callsOf mode g assetId (w, op) = [] := by
  simp only [callsOf, hlog, List.drop_length, List.filter_nil]

theorem callsOf_own (assetId : String) (call : BridgeCall)
    (hlog : (step mode (logged g) w op).1.bridge.2 = w.bridge.2 ++ [call])
    (hid : call.assetId = assetId) : callsOf mode g assetId (w, op) = [call] := by
  simp only [callsOf, hlog, List.drop_left, List.filter_cons, List.filter_nil, hid, beq_self_eq_true,
    if_true]

theorem callsOf_foreign (call : BridgeCall)
    (hlog : (step mode (logged g) w op).1.bridge.2 = w.bridge.2 ++ [call])
    (hid : call.assetId ≠ assetId) : callsOf mode g assetId (w, op) = [] := by
  simp only [callsOf, hlog, List.drop_left, List.filter_cons, List.filter_nil,
    beq_eq_false_iff_ne.mpr hid, Bool.false_eq_true, if_false]

theorem handshake_concat (tr : List (Logged β × Op)) (x : Logged β × Op) :
    handshake mode g assetId (tr ++ [x]) =
      if opens mode g assetId x then callsOf mode g assetId x
      else handshake mode g assetId tr ++ callsOf mode g assetId x := by
  rw [handshake, List.foldl_append]
  rfl

def outcome (g : GameCommit β) (w : Logged β) (assetId : String) : CommitOutcome :=
  (g.requestResidency w.bridge.1 assetId).1

/-- What a call does to the request for an asset, and the calls about it. -/
inductive Fate (mode : Overflow) (g : GameCommit β) (w : Logged β) (op : Op) (assetId : String) :
    Option Request → List BridgeCall → Prop
  | untouched (hidle : ∀ nowTick req deadlineTick, op = .poll assetId nowTick →
        w.tracker.requests.lookup assetId = some req → req.state = .waiting deadlineTick →
        nowTick < deadlineTick) :
      Fate mode g w op assetId (w.tracker.requests.lookup assetId) []
  | unopened {calls : List BridgeCall} (hnew : w.tracker.requests.lookup assetId = none) :
      Fate mode g w op assetId none calls
  | opened {nowTick timeoutTicks : BitVec 64} {maxRetries : BitVec 32} {state : ResidencyState}
      (hnew : w.tracker.requests.lookup assetId = none) (htimeout : timeoutTicks ≠ 0)
      (hsettle : settle mode nowTick timeoutTicks "bridge refused residency"
        (outcome g w assetId) = some state) :
      Fate mode g w op assetId (some ⟨state, 0, maxRetries, timeoutTicks⟩)
        [.requested assetId (outcome g w assetId)]
  | parked {req : Request} {deadlineTick : BitVec 64}
      (hreq : w.tracker.requests.lookup assetId = some req) (hstate : req.state = .requested) :
      Fate mode g w op assetId (some { req with state := .waiting deadlineTick }) []
  | expired {req : Request} {nowTick deadlineTick : BitVec 64} (hop : op = .poll assetId nowTick)
      (hreq : w.tracker.requests.lookup assetId = some req)
      (hstate : req.state = .waiting deadlineTick) (hused : req.maxRetries ≤ req.retriesUsed) :
      Fate mode g w op assetId (some { req with state := .expired }) []
  | retryPanicked {req : Request} {nowTick deadlineTick : BitVec 64}
      (hop : op = .poll assetId nowTick) (hreq : w.tracker.requests.lookup assetId = some req)
      (hstate : req.state = .waiting deadlineTick) (hdue : deadlineTick ≤ nowTick)
      (hused : req.retriesUsed < req.maxRetries)
      (hsettle : settle mode nowTick req.timeoutTicks "bridge refused residency on retry"
        (outcome g w assetId) = none) :
      Fate mode g w op assetId
        (some { req with state := .waiting deadlineTick, retriesUsed := req.retriesUsed + 1 })
        [.requested assetId (outcome g w assetId)]
  | retried {req : Request} {nowTick deadlineTick : BitVec 64} {state : ResidencyState}
      (hop : op = .poll assetId nowTick) (hreq : w.tracker.requests.lookup assetId = some req)
      (hstate : req.state = .waiting deadlineTick) (hdue : deadlineTick ≤ nowTick)
      (hused : req.retriesUsed < req.maxRetries)
      (hsettle : settle mode nowTick req.timeoutTicks "bridge refused residency on retry"
        (outcome g w assetId) = some state) :
      Fate mode g w op assetId
        (some { req with retriesUsed := req.retriesUsed + 1, state := state })
        [.requested assetId (outcome g w assetId)]
  | asked {req : Request} {nowTick deadlineTick : BitVec 64} {confirmed : Bool}
      (hreq : w.tracker.requests.lookup assetId = some req)
      (hstate : req.state = .resident deadlineTick) :
      Fate mode g w op assetId
        (some { req with state := confirmedState nowTick deadlineTick confirmed })
        [.confirmed assetId confirmed]
  | cancelled {req : Request} (hop : op = .cancel assetId)
      (hreq : w.tracker.requests.lookup assetId = some req)
      (hlive : req.state.terminal = false) :
      Fate mode g w op assetId (some { req with state := .cancelled }) []
  | reaped {req : Request} (hop : op = .reapTerminal)
      (hreq : w.tracker.requests.lookup assetId = some req) (hterminal : req.state.terminal) :
      Fate mode g w op assetId none []

theorem lookup_put_self {t : ResidencyTracker} (req : Request) :
    (t.put assetId req).requests.lookup assetId = some req :=
  AList.lookup_insert t.requests

theorem lookup_put_ne {t : ResidencyTracker} {id : String} (hid : assetId ≠ id) (req : Request) :
    (t.put id req).requests.lookup assetId = t.requests.lookup assetId :=
  AList.lookup_insert_ne hid

theorem record_request {id : String} {tracker : ResidencyTracker}
    (hstep : (step mode (logged g) w op).1 =
      ⟨tracker, ((logged g).requestResidency w.bridge id).2⟩) :
    (step mode (logged g) w op).1.bridge.2 =
      w.bridge.2 ++ [.requested id (outcome g w id)] := by
  rw [hstep]
  rfl

theorem fate_request {id : String} {maxRetries : BitVec 32} {tracker : ResidencyTracker}
    {bridge : β × List BridgeCall}
    (hrequest : Requested mode (logged g) w.tracker w.bridge id maxRetries tracker bridge)
    (hstep : (step mode (logged g) w op).1 = ⟨tracker, bridge⟩)
    (hop : ∀ nowTick, op ≠ .poll assetId nowTick) :
    Fate mode g w op assetId (tracker.requests.lookup assetId)
      (callsOf mode g assetId (w, op)) := by
  have hidle : ∀ nowTick req deadlineTick, op = .poll assetId nowTick →
      w.tracker.requests.lookup assetId = some req → req.state = .waiting deadlineTick →
      nowTick < deadlineTick :=
    fun nowTick _ _ heq ↦ absurd heq (hop nowTick)
  cases hrequest with
  | duplicate htracked =>
    rw [callsOf_quiet (by rw [hstep])]
    exact .untouched hidle
  | panicked hnew =>
    have hlog := record_request hstep
    by_cases hid : assetId = id
    · subst hid
      rw [hnew]
      exact .unopened hnew
    · rw [callsOf_foreign _ hlog (Ne.symm hid)]
      exact .untouched hidle
  | opened hnew htimeout hsettle =>
    have hlog := record_request hstep
    by_cases hid : assetId = id
    · subst hid
      rw [callsOf_own assetId _ hlog rfl, lookup_put_self]
      exact .opened hnew htimeout hsettle
    · rw [callsOf_foreign _ hlog (Ne.symm hid), lookup_put_ne hid]
      exact .untouched hidle

theorem fate_poll {id : String} {nowTick : BitVec 64} {tracker : ResidencyTracker}
    {bridge : β × List BridgeCall}
    (hpoll : Polled mode (logged g) w.tracker w.bridge id nowTick tracker bridge)
    (hop : op = .poll id nowTick) (hstep : (step mode (logged g) w op).1 = ⟨tracker, bridge⟩) :
    Fate mode g w op assetId (tracker.requests.lookup assetId)
      (callsOf mode g assetId (w, op)) := by
  have hother (hid : assetId ≠ id) :
      Fate mode g w op assetId (w.tracker.requests.lookup assetId) [] := by
    refine .untouched (fun _ _ _ heq ↦ ?_)
    rw [hop, Op.poll.injEq] at heq
    exact absurd heq.1.symm hid
  cases hpoll with
  | idle hidle hresident =>
    rw [callsOf_quiet (by rw [hstep])]
    refine .untouched (fun tick req deadlineTick heq ↦ ?_)
    rw [hop, Op.poll.injEq] at heq
    obtain ⟨rfl, rfl⟩ := heq
    exact hidle req deadlineTick
  | parked hreq hstate =>
    rw [callsOf_quiet (by rw [hstep])]
    by_cases hid : assetId = id
    · subst hid
      rw [lookup_put_self]
      exact .parked hreq hstate
    · rw [lookup_put_ne hid]
      exact hother hid
  | expired hreq hstate hdue hused =>
    rw [callsOf_quiet (by rw [hstep])]
    by_cases hid : assetId = id
    · subst hid
      rw [lookup_put_self]
      exact .expired hop hreq hstate hused
    · rw [lookup_put_ne hid]
      exact hother hid
  | retryPanicked hreq hstate hdue hused hsettle =>
    have hlog := record_request hstep
    by_cases hid : assetId = id
    · subst hid
      rw [callsOf_own assetId _ hlog rfl, lookup_put_self]
      exact .retryPanicked hop hreq hstate hdue hused hsettle
    · rw [callsOf_foreign _ hlog (Ne.symm hid), lookup_put_ne hid]
      exact hother hid
  | retried hreq hstate hdue hused hsettle =>
    have hlog := record_request hstep
    by_cases hid : assetId = id
    · subst hid
      rw [callsOf_own assetId _ hlog rfl, lookup_put_self]
      exact .retried hop hreq hstate hdue hused hsettle
    · rw [callsOf_foreign _ hlog (Ne.symm hid), lookup_put_ne hid]
      exact hother hid
  | asked hreq hstate =>
    have hlog : (step mode (logged g) w op).1.bridge.2 =
        w.bridge.2 ++ [.confirmed id (g.confirmResident w.bridge.1 id).1] := by
      rw [hstep]
      rfl
    by_cases hid : assetId = id
    · subst hid
      rw [callsOf_own assetId _ hlog rfl, lookup_put_self]
      exact .asked hreq hstate
    · rw [callsOf_foreign _ hlog (Ne.symm hid), lookup_put_ne hid]
      exact hother hid

theorem fate_cancel (id : String) (hop : op = .cancel id) :
    Fate mode g w op assetId ((w.tracker.cancel id).1.requests.lookup assetId)
      (callsOf mode g assetId (w, op)) := by
  have hidle : Fate mode g w op assetId (w.tracker.requests.lookup assetId) [] :=
    .untouched (fun nowTick _ _ heq ↦ by rw [hop] at heq; cases heq)
  rw [callsOf_quiet (by rw [hop]; rfl)]
  unfold ResidencyTracker.cancel
  cases hreq : w.tracker.requests.lookup id with
  | none => exact hidle
  | some req =>
    dsimp only
    split
    · exact hidle
    · rename_i hlive
      by_cases hid : assetId = id
      · subst hid
        rw [lookup_put_self]
        exact .cancelled hop hreq (Bool.eq_false_iff.mpr hlive)
      · rw [lookup_put_ne hid]
        exact hidle

theorem fate_reap (hop : op = .reapTerminal) :
    Fate mode g w op assetId (w.tracker.reapTerminal.1.requests.lookup assetId)
      (callsOf mode g assetId (w, op)) := by
  rw [callsOf_quiet (by rw [hop]; rfl)]
  have hretain : w.tracker.reapTerminal.1.requests.lookup assetId =
      (w.tracker.requests.lookup assetId).filter (fun req ↦ !req.state.terminal) :=
    lookup_retain _ _
  have hidle : Fate mode g w op assetId (w.tracker.requests.lookup assetId) [] :=
    .untouched (fun nowTick _ _ heq ↦ by rw [hop] at heq; cases heq)
  rw [hretain]
  cases hreq : w.tracker.requests.lookup assetId with
  | none =>
    rw [hreq] at hidle
    exact hidle
  | some req =>
    rw [Option.filter_some]
    cases hterminal : req.state.terminal with
    | true => exact .reaped hop hreq hterminal
    | false =>
      rw [hreq] at hidle
      exact hidle

theorem fate (mode : Overflow) (g : GameCommit β) (w : Logged β) (op : Op) (assetId : String) :
    Fate mode g w op assetId ((step mode (logged g) w op).1.tracker.requests.lookup assetId)
      (callsOf mode g assetId (w, op)) := by
  cases op with
  | request id nowTick timeoutTicks maxRetries =>
    have hrequest := @request_requested _ mode (logged g) w.tracker w.bridge id nowTick timeoutTicks
      maxRetries
    exact fate_request hrequest rfl (fun _ ↦ nofun)
  | poll id nowTick => exact fate_poll poll_polled rfl rfl
  | cancel id => exact fate_cancel id rfl
  | reapTerminal => exact fate_reap rfl

/-- What a tracked request and the calls about it have to do with each other. -/
structure Sound (assetId : String) (req : Request) (calls : List BridgeCall) : Prop where
  asked : calls.countP BridgeCall.isRequest ≤ 1 + req.retriesUsed.toNat
  within : req.retriesUsed ≤ req.maxRetries
  timed : req.timeoutTicks ≠ 0
  resident : ∀ deadlineTick, req.state = .resident deadlineTick →
    .requested assetId .accepted ∈ calls
  ready : req.state = .ready →
    [.requested assetId .accepted, .confirmed assetId true].Sublist calls

def Silent (state : ResidencyState) : Prop :=
  (∀ deadlineTick, state ≠ .resident deadlineTick) ∧ state ≠ .ready

variable {req : Request} {calls : List BridgeCall} {nowTick timeoutTicks deadlineTick : BitVec 64}
  {reason : String} {state : ResidencyState}

theorem Sound.silent (h : Sound assetId req calls) (hsilent : Silent state) :
    Sound assetId { req with state := state } calls where
  asked := h.asked
  within := h.within
  timed := h.timed
  resident d hd := absurd hd (hsilent.1 d)
  ready hready := absurd hready hsilent.2

/-- The bridge's answer settles into a state that is resident only when it accepted. -/
theorem settle_resident {outcome : CommitOutcome}
    (hsettle : settle mode nowTick timeoutTicks reason outcome = some state) :
    (outcome = .accepted ∧ state ≠ .ready) ∨ Silent state := by
  cases outcome with
  | accepted =>
    obtain ⟨d, -, rfl⟩ := Option.map_eq_some_iff.mp hsettle
    exact .inl ⟨rfl, nofun⟩
  | retryable =>
    obtain ⟨d, -, rfl⟩ := Option.map_eq_some_iff.mp hsettle
    exact .inr ⟨nofun, nofun⟩
  | fatal =>
    cases hsettle
    exact .inr ⟨nofun, nofun⟩

theorem countP_concat_request (calls : List BridgeCall) (outcome : CommitOutcome) :
    (calls ++ [BridgeCall.requested assetId outcome]).countP BridgeCall.isRequest =
      calls.countP BridgeCall.isRequest + 1 := by
  rw [List.countP_append]
  rfl

theorem sound_settled {outcome : CommitOutcome} {used maxRetries : BitVec 32}
    (hsettle : settle mode nowTick timeoutTicks reason outcome = some state)
    (hasked : calls.countP BridgeCall.isRequest ≤ used.toNat) (hwithin : used ≤ maxRetries)
    (htimeout : timeoutTicks ≠ 0) :
    Sound assetId ⟨state, used, maxRetries, timeoutTicks⟩
      (calls ++ [.requested assetId outcome]) := by
  refine ⟨?_, hwithin, htimeout, fun d hd ↦ ?_, fun hready ↦ ?_⟩
  · rw [countP_concat_request]
    dsimp only
    omega
  · rcases settle_resident hsettle with ⟨rfl, -⟩ | hsilent
    · exact List.mem_append_right _ List.mem_cons_self
    · exact absurd hd (hsilent.1 d)
  · rcases settle_resident hsettle with ⟨-, hne⟩ | hsilent
    · exact absurd hready hne
    · exact absurd hready hsilent.2

theorem retries_succ (hused : req.retriesUsed < req.maxRetries) :
    (req.retriesUsed + 1).toNat = req.retriesUsed.toNat + 1 ∧
      req.retriesUsed + 1 ≤ req.maxRetries := by
  rw [BitVec.lt_def] at hused
  have hlt := req.maxRetries.isLt
  have hone : (1 : BitVec 32).toNat = 1 := rfl
  have hsucc : (req.retriesUsed + 1).toNat = req.retriesUsed.toNat + 1 := by
    rw [BitVec.toNat_add, hone, Nat.mod_eq_of_lt (by omega)]
  refine ⟨hsucc, ?_⟩
  rw [BitVec.le_def]
  omega

theorem Sound.confirmed (h : Sound assetId req calls) (hstate : req.state = .resident deadlineTick)
    (answer : Bool) :
    Sound assetId { req with state := confirmedState nowTick deadlineTick answer }
      (calls ++ [.confirmed assetId answer]) := by
  have haccepted := h.resident deadlineTick hstate
  refine ⟨?_, h.within, h.timed, fun d _ ↦ List.mem_append_left _ haccepted, fun hready ↦ ?_⟩
  · rw [List.countP_append]
    exact h.asked
  · have hanswer : answer = true := by
      by_contra hfalse
      rw [Bool.not_eq_true] at hfalse
      subst hfalse
      simp only [confirmedState, Bool.false_eq_true, if_false] at hready
      split at hready <;> cases hready
    subst hanswer
    exact (List.singleton_sublist.mpr haccepted).append (List.Sublist.refl _)

def AllSound (mode : Overflow) (g : GameCommit β) (w : Logged β) (tr : List (Logged β × Op)) :
    Prop :=
  ∀ assetId req, w.tracker.requests.lookup assetId = some req →
    Sound assetId req (handshake mode g assetId tr)

theorem opens_of_tracked {x : Logged β × Op}
    (h : (x.1.tracker.requests.lookup assetId).isSome) : opens mode g assetId x = false := by
  simp [opens, Option.isNone_eq_false_iff.mpr h]

theorem allSound_step {tr : List (Logged β × Op)} (h : AllSound mode g w tr) (op : Op) :
    AllSound mode g (step mode (logged g) w op).1 (tr ++ [(w, op)]) := by
  intro assetId new hnew
  -- the calls so far, when the asset was tracked before
  have hlog (req : Request) (hreq : w.tracker.requests.lookup assetId = some req) :
      Sound assetId req (handshake mode g assetId tr) ∧
        handshake mode g assetId (tr ++ [(w, op)]) =
          handshake mode g assetId tr ++ callsOf mode g assetId (w, op) := by
    refine ⟨h assetId req hreq, ?_⟩
    rw [handshake_concat, opens_of_tracked (by rw [hreq]; rfl), if_neg Bool.false_ne_true]
  have hfate := fate mode g w op assetId
  rw [hnew] at hfate
  generalize hcalls : callsOf mode g assetId (w, op) = calls at hlog hfate
  generalize hnext : some new = next at hfate
  cases hfate with
  | untouched hidle =>
    obtain ⟨hsound, heq⟩ := hlog new hnext.symm
    rwa [heq, List.append_nil]
  | unopened hnone => cases hnext
  | opened hnone htimeout hsettle =>
    have hopens : opens mode g assetId (w, op) = true := by
      simp only [opens, hnone, hnew]
      rfl
    rw [handshake_concat, hopens, if_pos rfl, hcalls]
    cases hnext
    rw [← List.nil_append [BridgeCall.requested assetId (outcome g w assetId)]]
    exact sound_settled hsettle (Nat.le_refl 0) (BitVec.le_def.mpr (Nat.zero_le _)) htimeout
  | parked hreq hstate =>
    obtain ⟨hsound, heq⟩ := hlog _ hreq
    cases hnext
    rw [heq, List.append_nil]
    exact hsound.silent ⟨nofun, nofun⟩
  | expired hop hreq hstate hused =>
    obtain ⟨hsound, heq⟩ := hlog _ hreq
    cases hnext
    rw [heq, List.append_nil]
    exact hsound.silent ⟨nofun, nofun⟩
  | retryPanicked hop hreq hstate hdue hused hsettle =>
    obtain ⟨hsound, heq⟩ := hlog _ hreq
    obtain ⟨hsucc, hle⟩ := retries_succ hused
    have hasked := hsound.asked
    cases hnext
    rw [heq]
    refine ⟨?_, hle, hsound.timed, nofun, nofun⟩
    rw [countP_concat_request]
    dsimp only
    omega
  | retried hop hreq hstate hdue hused hsettle =>
    obtain ⟨hsound, heq⟩ := hlog _ hreq
    obtain ⟨hsucc, hle⟩ := retries_succ hused
    have hasked := hsound.asked
    cases hnext
    rw [heq]
    refine sound_settled hsettle ?_ hle hsound.timed
    omega
  | asked hreq hstate =>
    obtain ⟨hsound, heq⟩ := hlog _ hreq
    cases hnext
    rw [heq]
    exact hsound.confirmed hstate _
  | cancelled hop hreq hlive =>
    obtain ⟨hsound, heq⟩ := hlog _ hreq
    cases hnext
    rw [heq, List.append_nil]
    exact hsound.silent ⟨nofun, nofun⟩
  | reaped hop hreq hterminal => cases hnext

theorem allSound_run (mode : Overflow) (g : GameCommit β) (bridge : β) (ops : List Op) :
    AllSound mode g (run (step mode (logged g)) ⟨.new, bridge, []⟩ ops)
      (trace (step mode (logged g)) ⟨.new, bridge, []⟩ ops) := by
  refine invariant_trace (I := AllSound mode g) (P := fun _ _ ↦ True)
    (fun _ _ op h _ ↦ allSound_step h op) ?_ ops (fun _ _ ↦ trivial)
  intro assetId req hreq
  cases hreq

/-- A request that is through stays as it is, until it is reaped, and the bridge is left alone. -/
def Final (mode : Overflow) (g : GameCommit β) (w : Logged β) (op : Op) : Prop :=
  ∀ assetId req, w.tracker.requests.lookup assetId = some req → req.state.terminal →
    ((step mode (logged g) w op).1.tracker.requests.lookup assetId = some req ∨
      op = .reapTerminal ∧
        (step mode (logged g) w op).1.tracker.requests.lookup assetId = none) ∧
    callsOf mode g assetId (w, op) = []

/-- A poll at or after its deadline leaves the waiting state with that deadline, by a retry or by
expiry. -/
def MovesOn (mode : Overflow) (g : GameCommit β) (w : Logged β) (op : Op) : Prop :=
  ∀ assetId nowTick req deadlineTick, op = .poll assetId nowTick →
    w.tracker.requests.lookup assetId = some req → req.state = .waiting deadlineTick →
    deadlineTick ≤ nowTick →
    ∃ new, (step mode (logged g) w op).1.tracker.requests.lookup assetId = some new ∧
      new.state ≠ .waiting deadlineTick ∧
      (new.retriesUsed = req.retriesUsed + 1 ∨ new.state = .expired)

/-- The deadline of a retry does not overflow: where additions panic, not at all, and where they
wrap, not onto the old deadline. -/
def InTime (mode : Overflow) (g : GameCommit β) (w : Logged β) : Op → Prop
  | .poll assetId nowTick => ∀ req deadlineTick,
      w.tracker.requests.lookup assetId = some req → req.state = .waiting deadlineTick →
      deadlineTick ≤ nowTick → req.retriesUsed < req.maxRetries →
      (mode = .wraps → outcome g w assetId = .retryable →
        nowTick.toNat + req.timeoutTicks.toNat ≠ deadlineTick.toNat + 2 ^ 64) ∧
      (mode = .panics → outcome g w assetId ≠ .fatal →
        nowTick.toNat + req.timeoutTicks.toNat < 2 ^ 64)
  | _ => True

theorem final_step (mode : Overflow) (g : GameCommit β) (w : Logged β) (op : Op) :
    Final mode g w op := by
  intro assetId req hreq hterminal
  have hlive {state : ResidencyState} {req' : Request}
      (hreq' : w.tracker.requests.lookup assetId = some req') (hstate : req'.state = state)
      (hrunning : state.terminal = false) : False := by
    cases hreq.symm.trans hreq'
    rw [hstate, hrunning] at hterminal
    cases hterminal
  have hfate := fate mode g w op assetId
  generalize callsOf mode g assetId (w, op) = calls at hfate ⊢
  generalize (step mode (logged g) w op).1.tracker.requests.lookup assetId = next at hfate ⊢
  cases hfate with
  | untouched hidle => exact ⟨.inl hreq, rfl⟩
  | unopened hnone => cases hnone.symm.trans hreq
  | opened hnone htimeout hsettle => cases hnone.symm.trans hreq
  | parked hreq' hstate => exact (hlive hreq' hstate rfl).elim
  | expired hop hreq' hstate hused => exact (hlive hreq' hstate rfl).elim
  | retryPanicked hop hreq' hstate hdue hused hsettle => exact (hlive hreq' hstate rfl).elim
  | retried hop hreq' hstate hdue hused hsettle => exact (hlive hreq' hstate rfl).elim
  | asked hreq' hstate => exact (hlive hreq' hstate rfl).elim
  | cancelled hop hreq' hrunning => exact (hlive hreq' rfl hrunning).elim
  | reaped hop hreq' hterminal' => exact ⟨.inr ⟨hop, rfl⟩, rfl⟩

theorem add_isSome_iff {a b : BitVec 64} :
    (∃ x, mode.add a b = some x) ↔ (mode = .panics → a.toNat + b.toNat < 2 ^ 64) := by
  cases mode with
  | wraps => simp [Overflow.add, Overflow.word]
  | panics => simp [Overflow.add, Overflow.word]

theorem settle_moves_iff {outcome : CommitOutcome} (htimeout : timeoutTicks ≠ 0)
    (hdue : deadlineTick ≤ nowTick) :
    (∃ state, settle mode nowTick timeoutTicks reason outcome = some state ∧
        state ≠ .waiting deadlineTick) ↔
      (mode = .wraps → outcome = .retryable →
        nowTick.toNat + timeoutTicks.toNat ≠ deadlineTick.toNat + 2 ^ 64) ∧
      (mode = .panics → outcome ≠ .fatal → nowTick.toNat + timeoutTicks.toNat < 2 ^ 64) := by
  cases outcome with
  | fatal => simp [settle]
  | accepted =>
    have hadd := @add_isSome_iff mode nowTick timeoutTicks
    simpa [settle] using hadd
  | retryable =>
    have hpos : timeoutTicks.toNat ≠ 0 := fun hzero ↦ htimeout (BitVec.eq_of_toNat_eq hzero)
    have hlt := nowTick.isLt
    have hlt' := timeoutTicks.isLt
    rw [BitVec.le_def] at hdue
    -- the new deadline is the old one only if the addition wraps onto it
    have hsame {d : BitVec 64} (hd : mode.add nowTick timeoutTicks = some d) :
        d = deadlineTick ↔
          nowTick.toNat + timeoutTicks.toNat = deadlineTick.toNat + 2 ^ 64 := by
      rw [← BitVec.toNat_inj, (word_toNat hd).1]
      omega
    have hstate : (∃ state, settle mode nowTick timeoutTicks reason .retryable = some state ∧
        state ≠ .waiting deadlineTick) ↔
        ∃ d, mode.add nowTick timeoutTicks = some d ∧ d ≠ deadlineTick := by
      simp [settle]
    rw [hstate]
    cases mode with
    | wraps =>
      obtain ⟨d, hd⟩ := add_isSome_iff.mpr (fun h : Overflow.wraps = .panics ↦ nomatch h)
      constructor
      · intro h
        obtain ⟨d', hd', hne⟩ := h
        exact ⟨fun _ _ heq ↦ hne ((hsame hd').mpr heq), nofun⟩
      · intro h
        exact ⟨d, hd, fun heq ↦ h.1 rfl rfl ((hsame hd).mp heq)⟩
    | panics =>
      constructor
      · intro h
        obtain ⟨d, hd, -⟩ := h
        exact ⟨nofun, fun _ _ ↦ (word_toNat hd).2 rfl⟩
      · intro h
        have hfits := h.2 rfl nofun
        obtain ⟨d, hd⟩ := add_isSome_iff.mpr (fun _ : Overflow.panics = .panics ↦ hfits)
        exact ⟨d, hd, fun heq ↦ by have := (hsame hd).mp heq; omega⟩

theorem due_cases (hreq : w.tracker.requests.lookup assetId = some req)
    (hstate : req.state = .waiting deadlineTick) (hdue : deadlineTick ≤ nowTick)
    (hop : op = .poll assetId nowTick) {next : Option Request} {calls : List BridgeCall}
    (hfate : Fate mode g w op assetId next calls) :
    (req.maxRetries ≤ req.retriesUsed ∧ next = some { req with state := .expired }) ∨
    (req.retriesUsed < req.maxRetries ∧
      settle mode nowTick req.timeoutTicks "bridge refused residency on retry"
        (outcome g w assetId) = none ∧
      next = some { req with state := .waiting deadlineTick, retriesUsed := req.retriesUsed + 1 }) ∨
    (req.retriesUsed < req.maxRetries ∧ ∃ state,
      settle mode nowTick req.timeoutTicks "bridge refused residency on retry"
        (outcome g w assetId) = some state ∧
      next = some { req with retriesUsed := req.retriesUsed + 1, state := state }) := by
  subst hop
  cases hfate with
  | untouched hidle =>
    exact absurd (hidle nowTick req deadlineTick rfl hreq hstate) (BitVec.not_lt.mpr hdue)
  | unopened hnone => cases hnone.symm.trans hreq
  | opened hnone htimeout hsettle => cases hnone.symm.trans hreq
  | parked hreq' hstate' =>
    cases hreq.symm.trans hreq'
    cases hstate.symm.trans hstate'
  | expired hop hreq' hstate' hused =>
    cases hreq.symm.trans hreq'
    exact .inl ⟨hused, rfl⟩
  | retryPanicked hop hreq' hstate' hdue' hused hsettle =>
    cases hreq.symm.trans hreq'
    cases hstate.symm.trans hstate'
    cases hop
    exact .inr (.inl ⟨hused, hsettle, rfl⟩)
  | retried hop hreq' hstate' hdue' hused hsettle =>
    cases hreq.symm.trans hreq'
    cases hop
    exact .inr (.inr ⟨hused, _, hsettle, rfl⟩)
  | asked hreq' hstate' =>
    cases hreq.symm.trans hreq'
    cases hstate.symm.trans hstate'
  | cancelled hop hreq' hlive => cases hop
  | reaped hop hreq' hterminal => cases hop

/-- A poll moves on exactly when a retry, if one is due, settles elsewhere. -/
theorem movesOn_iff
    (htimed : ∀ assetId req, w.tracker.requests.lookup assetId = some req →
      req.timeoutTicks ≠ 0) :
    MovesOn mode g w op ↔ InTime mode g w op := by
  constructor
  · intro h
    cases op with
    | poll assetId nowTick =>
      intro req deadlineTick hreq hstate hdue hused
      obtain ⟨new, hnew, hne, -⟩ := h assetId nowTick req deadlineTick rfl hreq hstate hdue
      apply (settle_moves_iff (htimed assetId req hreq) hdue).mp
      rcases due_cases hreq hstate hdue rfl (fate mode g w _ assetId) with
        ⟨hspent, -⟩ | ⟨-, -, hnext⟩ | ⟨-, state, hsettle, hnext⟩
      · exact absurd hused (BitVec.not_lt.mpr hspent)
      · cases hnew.symm.trans hnext
        exact absurd rfl hne
      · cases hnew.symm.trans hnext
        exact ⟨state, hsettle, hne⟩
    | _ => trivial
  · intro h assetId nowTick req deadlineTick hop hreq hstate hdue
    subst hop
    rcases due_cases hreq hstate hdue rfl (fate mode g w _ assetId) with
      ⟨hspent, hnext⟩ | ⟨hused, hsettle, -⟩ | ⟨hused, state, hsettle, hnext⟩
    · exact ⟨_, hnext, nofun, .inr rfl⟩
    · obtain ⟨state, hsettle', -⟩ := (settle_moves_iff (htimed assetId req hreq) hdue).mpr
        (h req deadlineTick hreq hstate hdue hused)
      cases hsettle.symm.trans hsettle'
    · obtain ⟨state', hsettle', hne⟩ := (settle_moves_iff (htimed assetId req hreq) hdue).mpr
        (h req deadlineTick hreq hstate hdue hused)
      cases hsettle.symm.trans hsettle'
      exact ⟨_, hnext, hne, .inl rfl⟩

structure Kept (mode : Overflow) (g : GameCommit β) (bridge : β) (ops : List Op) : Prop where
  bounded : ∀ before, before <+: ops → ∀ assetId req,
    (run (step mode (logged g)) ⟨.new, bridge, []⟩ before).tracker.requests.lookup assetId =
      some req →
    (handshake mode g assetId (trace (step mode (logged g)) ⟨.new, bridge, []⟩ before)).countP
      BridgeCall.isRequest ≤ 1 + req.maxRetries.toNat
  earned : ∀ before, before <+: ops → ∀ assetId req,
    (run (step mode (logged g)) ⟨.new, bridge, []⟩ before).tracker.requests.lookup assetId =
      some req → req.state = .ready →
    [.requested assetId .accepted, .confirmed assetId true].Sublist
      (handshake mode g assetId (trace (step mode (logged g)) ⟨.new, bridge, []⟩ before))
  final : ∀ x ∈ trace (step mode (logged g)) ⟨.new, bridge, []⟩ ops, Final mode g x.1 x.2
  moves : ∀ x ∈ trace (step mode (logged g)) ⟨.new, bridge, []⟩ ops, MovesOn mode g x.1 x.2

/-- Whatever the bridge answers and whatever the ticks, the law of the handshake is kept exactly when
the deadlines of retries do not overflow; only the last part of the law depends on it. -/
theorem handshakes_kept_iff (mode : Overflow) (g : GameCommit β) (bridge : β) (ops : List Op) :
    Kept mode g bridge ops ↔
      ∀ x ∈ trace (step mode (logged g)) ⟨.new, bridge, []⟩ ops, InTime mode g x.1 x.2 := by
  have hiff : ∀ x ∈ trace (step mode (logged g)) ⟨.new, bridge, []⟩ ops,
      (MovesOn mode g x.1 x.2 ↔ InTime mode g x.1 x.2) := by
    intro x hx
    obtain ⟨before, after, -, hreached⟩ := mem_trace hx
    have hsound := allSound_run mode g bridge before
    rw [← hreached] at hsound
    exact movesOn_iff (fun assetId req hreq ↦ (hsound assetId req hreq).timed)
  constructor
  · intro h x hx
    exact (hiff x hx).mp (h.moves x hx)
  · intro h
    refine ⟨fun before _ assetId req hreq ↦ ?_, fun before _ assetId req hreq ↦ ?_,
      fun x _ ↦ final_step mode g x.1 x.2, fun x hx ↦ (hiff x hx).mpr (h x hx)⟩
    · have hsound := allSound_run mode g bridge before assetId req hreq
      have hwithin := hsound.within
      rw [BitVec.le_def] at hwithin
      exact hsound.asked.trans (Nat.add_le_add_left hwithin 1)
    · exact (allSound_run mode g bridge before assetId req hreq).ready

def reluctant : GameCommit Unit where
  requestResidency _ _ := (.retryable, ())
  confirmResident _ _ := (false, ())

def longest : List Op := [.request "a" 1 (BitVec.allOnes 64) 3, .poll "a" 1]

theorem longest_stays : ¬ Kept .wraps reluctant () longest := by
  intro h
  have hpoll := h.moves (run (step .wraps (logged reluctant)) ⟨.new, (), []⟩ (longest.take 1),
    .poll "a" 1) (List.mem_cons_of_mem _ List.mem_cons_self)
  have hbefore : (run (step .wraps (logged reluctant)) ⟨.new, (), []⟩
      (longest.take 1)).tracker.requests.lookup "a" =
      some ⟨.waiting 0, 0, 3, BitVec.allOnes 64⟩ := by decide +kernel
  have hafter : (run (step .wraps (logged reluctant)) ⟨.new, (), []⟩
      longest).tracker.requests.lookup "a" =
      some ⟨.waiting 0, 1, 3, BitVec.allOnes 64⟩ := by decide +kernel
  obtain ⟨new, hnew, hne, -⟩ := hpoll "a" 1 _ 0 rfl hbefore rfl (by decide)
  cases hafter.symm.trans hnew
  exact absurd rfl hne

end Aldivine.Residency.Handshakes
