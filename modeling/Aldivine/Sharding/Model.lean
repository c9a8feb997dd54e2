import Aldivine.Foundation.Machine
import Aldivine.Foundation.Table

namespace Aldivine.Sharding.Model

open Foundation.Machine Foundation.Table

abbrev ShardId := BitVec 32

inductive HandoffPhase
  | initiated
  | prepared
  | committed
  | aborted (reason : String)
deriving DecidableEq

structure HandoffTicket where
  ticketId : String
  playerId : BitVec 32
  fromShard : ShardId
  toShard : ShardId
  entities : List (BitVec 32)
  phase : HandoffPhase
deriving DecidableEq

structure OwnershipLease where
  entityId : BitVec 32
  ownerShard : ShardId
  epoch : BitVec 64
  expiresAtMs : BitVec 64
deriving DecidableEq

inductive ShardingError
  | shardNotFound (shard : ShardId)
  | ticketNotFound (ticket : String)
  | invalidTransition (current target : HandoffPhase)
  | leaseConflict (entity : BitVec 32) (owner : ShardId)
deriving DecidableEq

inductive Reply
  | done
  | ticket (t : HandoffTicket)
  | lease (l : OwnershipLease)
  | reclaimed (count : ℕ)
deriving DecidableEq

abbrev Answer := Outcome ShardingError Reply

/-- Of a region only its shard takes part in handoffs and leases. -/
structure ShardCoordinator where
  regions : List ShardId
  tickets : AList (fun _ : String ↦ HandoffTicket)
  leases : AList (fun _ : BitVec 32 ↦ OwnershipLease)
  currentEpoch : BitVec 64

/-- The lease stands in the way of `shard` at `nowMs`. -/
def OwnershipLease.bars (lease : OwnershipLease) (shard : ShardId) (nowMs : BitVec 64) : Bool :=
  lease.ownerShard != shard && lease.expiresAtMs > nowMs

namespace ShardCoordinator

def new : ShardCoordinator := ⟨[], ∅, ∅, 1⟩

def registerShard (s : ShardCoordinator) (shard : ShardId) : ShardCoordinator × Answer :=
  ({ s with regions := s.regions ++ [shard] }, .ok .done)

def initiateHandoff (s : ShardCoordinator) (ticketId : String) (playerId : BitVec 32)
    (fromShard toShard : ShardId) (entities : List (BitVec 32)) : ShardCoordinator × Answer :=
  if !s.regions.any (· == fromShard) then (s, .err (.shardNotFound fromShard))
  else if !s.regions.any (· == toShard) then (s, .err (.shardNotFound toShard))
  else
    let ticket : HandoffTicket := ⟨ticketId, playerId, fromShard, toShard, entities, .initiated⟩
    ({ s with tickets := s.tickets.insert ticketId ticket }, .ok (.ticket ticket))

/-- The loop of `prepare_handoff`: the first lease that stands in the way. -/
def conflict (s : ShardCoordinator) (ticket : HandoffTicket) (nowMs : BitVec 64) :
    Option ShardingError :=
  ticket.entities.findSome? (fun ent ↦
    ((s.leases.lookup ent).filter (·.bars ticket.fromShard nowMs)).map
      (fun lease ↦ .leaseConflict ent lease.ownerShard))

def setPhase (s : ShardCoordinator) (ticketId : String) (ticket : HandoffTicket)
    (phase : HandoffPhase) : ShardCoordinator :=
  { s with tickets := s.tickets.insert ticketId { ticket with phase := phase } }

def prepareHandoff (s : ShardCoordinator) (ticketId : String) (nowMs : BitVec 64) :
    ShardCoordinator × Answer :=
  match s.tickets.lookup ticketId with
  | none => (s, .err (.ticketNotFound ticketId))
  | some ticket =>
    if ticket.phase ≠ .initiated then (s, .err (.invalidTransition ticket.phase .prepared))
    else
      match s.conflict ticket nowMs with
      | some e => (s, .err e)
      | none => (s.setPhase ticketId ticket .prepared, .ok .done)

/-- The loop of `commit_handoff`: the entities go to the target shard. -/
def grantAll (s : ShardCoordinator) (ticket : HandoffTicket) (expiresAtMs : BitVec 64) :
    ShardCoordinator :=
  { s with
      leases := ticket.entities.foldl (fun leases ent ↦
        leases.insert ent ⟨ent, ticket.toShard, s.currentEpoch, expiresAtMs⟩) s.leases }

/-- The epoch has moved on when the addition of the time to live panics. -/
def commitHandoff (mode : Overflow) (s : ShardCoordinator) (ticketId : String)
    (leaseTtlMs nowMs : BitVec 64) : ShardCoordinator × Answer :=
  match s.tickets.lookup ticketId with
  | none => (s, .err (.ticketNotFound ticketId))
  | some ticket =>
    if ticket.phase ≠ .prepared then (s, .err (.invalidTransition ticket.phase .committed))
    else
      match mode.add s.currentEpoch 1 with
      | none => (s, .panic)
      | some epoch =>
        let s := { s with currentEpoch := epoch }
        match mode.add nowMs leaseTtlMs with
        | none => (s, .panic)
        | some expiresAtMs =>
          ((s.grantAll ticket expiresAtMs).setPhase ticketId ticket .committed, .ok .done)

/-- The phase of the ticket is not looked at. -/
def abortHandoff (s : ShardCoordinator) (ticketId reason : String) : ShardCoordinator × Answer :=
  match s.tickets.lookup ticketId with
  | none => (s, .err (.ticketNotFound ticketId))
  | some ticket => (s.setPhase ticketId ticket (.aborted reason), .ok .done)

def acquireLease (mode : Overflow) (s : ShardCoordinator) (entityId : BitVec 32)
    (shardId : ShardId) (ttlMs nowMs : BitVec 64) : ShardCoordinator × Answer :=
  match (s.leases.lookup entityId).filter (·.bars shardId nowMs) with
  | some existing => (s, .err (.leaseConflict entityId existing.ownerShard))
  | none =>
    match mode.add s.currentEpoch 1 with
    | none => (s, .panic)
    | some epoch =>
      let s := { s with currentEpoch := epoch }
      match mode.add nowMs ttlMs with
      | none => (s, .panic)
      | some expiresAtMs =>
        let lease : OwnershipLease := ⟨entityId, shardId, epoch, expiresAtMs⟩
        ({ s with leases := s.leases.insert entityId lease }, .ok (.lease lease))

def getLease (s : ShardCoordinator) (entityId : BitVec 32) : Option OwnershipLease :=
  s.leases.lookup entityId

def reclaimExpiredLeases (s : ShardCoordinator) (nowMs : BitVec 64) : ShardCoordinator × Answer :=
  let kept := retain (fun _ lease ↦ lease.expiresAtMs > nowMs) s.leases
  ({ s with leases := kept }, .ok (.reclaimed (s.leases.entries.length - kept.entries.length)))

end ShardCoordinator

inductive Op
  | registerShard (shard : ShardId)
  | initiateHandoff (ticketId : String) (playerId : BitVec 32) (fromShard toShard : ShardId)
      (entities : List (BitVec 32))
  | prepareHandoff (ticketId : String) (nowMs : BitVec 64)
  | commitHandoff (ticketId : String) (leaseTtlMs nowMs : BitVec 64)
  | abortHandoff (ticketId reason : String)
  | acquireLease (entityId : BitVec 32) (shardId : ShardId) (ttlMs nowMs : BitVec 64)
  | reclaimExpiredLeases (nowMs : BitVec 64)
deriving DecidableEq

def step (mode : Overflow) (s : ShardCoordinator) : Op → ShardCoordinator × Answer
  | .registerShard shard => s.registerShard shard
  | .initiateHandoff ticketId playerId fromShard toShard entities =>
    s.initiateHandoff ticketId playerId fromShard toShard entities
  | .prepareHandoff ticketId nowMs => s.prepareHandoff ticketId nowMs
  | .commitHandoff ticketId leaseTtlMs nowMs => s.commitHandoff mode ticketId leaseTtlMs nowMs
  | .abortHandoff ticketId reason => s.abortHandoff ticketId reason
  | .acquireLease entityId shardId ttlMs nowMs => s.acquireLease mode entityId shardId ttlMs nowMs
  | .reclaimExpiredLeases nowMs => s.reclaimExpiredLeases nowMs

def Op.nowMs : Op → Option (BitVec 64)
  | .prepareHandoff _ nowMs => some nowMs
  | .commitHandoff _ _ nowMs => some nowMs
  | .acquireLease _ _ _ nowMs => some nowMs
  | .reclaimExpiredLeases nowMs => some nowMs
  | _ => none

section Calls

variable {mode : Overflow} {s : ShardCoordinator}

def Fits (mode : Overflow) (s : ShardCoordinator) (nowMs ttlMs : BitVec 64) : Prop :=
  mode = .panics → s.currentEpoch.toNat + 1 < 2 ^ 64 ∧ nowMs.toNat + ttlMs.toNat < 2 ^ 64

def Refuses (s : ShardCoordinator) : Op → Prop
  | .registerShard _ => False
  | .initiateHandoff _ _ fromShard toShard _ => fromShard ∉ s.regions ∨ toShard ∉ s.regions
  | .prepareHandoff ticketId nowMs => ∀ ticket, s.tickets.lookup ticketId = some ticket →
      ticket.phase = .initiated → s.conflict ticket nowMs ≠ none
  | .commitHandoff ticketId _ _ =>
      ∀ ticket, s.tickets.lookup ticketId = some ticket → ticket.phase ≠ .prepared
  | .abortHandoff ticketId _ => s.tickets.lookup ticketId = none
  | .acquireLease entityId shardId _ nowMs =>
      ∃ lease, s.leases.lookup entityId = some lease ∧ lease.bars shardId nowMs
  | .reclaimExpiredLeases _ => False

def Panics (mode : Overflow) (s : ShardCoordinator) : Op → Prop
  | .commitHandoff _ leaseTtlMs nowMs => ¬ Fits mode s nowMs leaseTtlMs
  | .acquireLease _ _ ttlMs nowMs => ¬ Fits mode s nowMs ttlMs
  | _ => False

inductive Called (mode : Overflow) (s : ShardCoordinator) :
    Op → ShardCoordinator → Answer → Prop
  | refused {op : Op} {e : ShardingError} (hop : Refuses s op) : Called mode s op s (.err e)
  | panicked {op : Op} {s' : ShardCoordinator} (hop : Panics mode s op)
      (hs' : s' = s ∨
        ∃ epoch, mode.add s.currentEpoch 1 = some epoch ∧ s' = { s with currentEpoch := epoch }) :
      Called mode s op s' .panic
  | registered {shard : ShardId} :
      Called mode s (.registerShard shard) { s with regions := s.regions ++ [shard] } (.ok .done)
  | initiated {ticketId : String} {playerId : BitVec 32} {fromShard toShard : ShardId}
      {entities : List (BitVec 32)} {ticket : HandoffTicket}
      (hticket : ticket = ⟨ticketId, playerId, fromShard, toShard, entities, .initiated⟩)
      (hfrom : fromShard ∈ s.regions) (hto : toShard ∈ s.regions) :
      Called mode s (.initiateHandoff ticketId playerId fromShard toShard entities)
        { s with tickets := s.tickets.insert ticketId ticket } (.ok (.ticket ticket))
  | prepared {ticketId : String} {ticket : HandoffTicket} {nowMs : BitVec 64}
      (hticket : s.tickets.lookup ticketId = some ticket) (hphase : ticket.phase = .initiated)
      (hfree : s.conflict ticket nowMs = none) :
      Called mode s (.prepareHandoff ticketId nowMs) (s.setPhase ticketId ticket .prepared)
        (.ok .done)
  | committed {ticketId : String} {ticket : HandoffTicket} {s' : ShardCoordinator}
      {leaseTtlMs nowMs epoch expiresAtMs : BitVec 64}
      (hticket : s.tickets.lookup ticketId = some ticket) (hphase : ticket.phase = .prepared)
      (hepoch : mode.add s.currentEpoch 1 = some epoch)
      (hexpires : mode.add nowMs leaseTtlMs = some expiresAtMs)
      (hs' : s' = (ShardCoordinator.grantAll { s with currentEpoch := epoch } ticket
        expiresAtMs).setPhase ticketId ticket .committed) :
      Called mode s (.commitHandoff ticketId leaseTtlMs nowMs) s' (.ok .done)
  | aborted {ticketId reason : String} {ticket : HandoffTicket}
      (hticket : s.tickets.lookup ticketId = some ticket) :
      Called mode s (.abortHandoff ticketId reason)
        (s.setPhase ticketId ticket (.aborted reason)) (.ok .done)
  | acquired {entityId : BitVec 32} {shardId : ShardId} {ttlMs nowMs epoch expiresAtMs : BitVec 64}
      {lease : OwnershipLease} (hlease : lease = ⟨entityId, shardId, epoch, expiresAtMs⟩)
      (hfree : ∀ old, s.leases.lookup entityId = some old → old.bars shardId nowMs = false)
      (hepoch : mode.add s.currentEpoch 1 = some epoch)
      (hexpires : mode.add nowMs ttlMs = some expiresAtMs) :
      Called mode s (.acquireLease entityId shardId ttlMs nowMs)
        { s with currentEpoch := epoch, leases := s.leases.insert entityId lease }
        (.ok (.lease lease))
  | reclaimed {nowMs : BitVec 64} {count : ℕ} :
      Called mode s (.reclaimExpiredLeases nowMs)
        { s with leases := retain (fun _ lease ↦ lease.expiresAtMs > nowMs) s.leases }
        (.ok (.reclaimed count))

open ShardCoordinator

theorem fits_iff {nowMs ttlMs : BitVec 64} :
    Fits mode s nowMs ttlMs ↔
      (∃ epoch, mode.add s.currentEpoch 1 = some epoch) ∧
        ∃ expiresAtMs, mode.add nowMs ttlMs = some expiresAtMs := by
  cases mode with
  | wraps => simp [Fits, Overflow.add, Overflow.word]
  | panics => simp [Fits, Overflow.add, Overflow.word]

theorem not_fits_of_epoch {nowMs ttlMs : BitVec 64} (h : mode.add s.currentEpoch 1 = none) :
    ¬Fits mode s nowMs ttlMs := by
  intro hfits
  obtain ⟨⟨epoch, hepoch⟩, -⟩ := fits_iff.mp hfits
  cases h.symm.trans hepoch

theorem not_fits_of_expiry {nowMs ttlMs : BitVec 64} (h : mode.add nowMs ttlMs = none) :
    ¬Fits mode s nowMs ttlMs := by
  intro hfits
  obtain ⟨-, expiresAtMs, hexpires⟩ := fits_iff.mp hfits
  cases h.symm.trans hexpires

theorem initiateHandoff_called (ticketId : String) (playerId : BitVec 32)
    (fromShard toShard : ShardId) (entities : List (BitVec 32)) :
    Called mode s (.initiateHandoff ticketId playerId fromShard toShard entities)
      (s.initiateHandoff ticketId playerId fromShard toShard entities).1
      (s.initiateHandoff ticketId playerId fromShard toShard entities).2 := by
  unfold initiateHandoff
  simp only [List.any_beq', Bool.not_eq_true', List.contains_eq_mem, decide_eq_false_iff_not]
  split
  · exact .refused (.inl ‹_›)
  · split
    · exact .refused (.inr ‹_›)
    · rename_i hfrom hto
      exact .initiated rfl (not_not.mp hfrom) (not_not.mp hto)

theorem prepareHandoff_called (ticketId : String) (nowMs : BitVec 64) :
    Called mode s (.prepareHandoff ticketId nowMs) (s.prepareHandoff ticketId nowMs).1
      (s.prepareHandoff ticketId nowMs).2 := by
  unfold prepareHandoff
  cases hticket : s.tickets.lookup ticketId with
  | none =>
    refine .refused (fun ticket h ↦ ?_)
    cases hticket.symm.trans h
  | some ticket =>
    dsimp only
    split
    · rename_i hphase
      refine .refused (fun other h hinit ↦ ?_)
      cases hticket.symm.trans h
      exact absurd hinit hphase
    · rename_i hphase
      cases hfree : s.conflict ticket nowMs with
      | none => exact .prepared hticket (not_not.mp hphase) hfree
      | some e =>
        refine .refused (fun other h _ ↦ ?_)
        cases hticket.symm.trans h
        rw [hfree]
        exact Option.some_ne_none e

theorem commitHandoff_called (ticketId : String) (leaseTtlMs nowMs : BitVec 64) :
    Called mode s (.commitHandoff ticketId leaseTtlMs nowMs)
      (s.commitHandoff mode ticketId leaseTtlMs nowMs).1
      (s.commitHandoff mode ticketId leaseTtlMs nowMs).2 := by
  unfold commitHandoff
  cases hticket : s.tickets.lookup ticketId with
  | none =>
    refine .refused (fun ticket h ↦ ?_)
    cases hticket.symm.trans h
  | some ticket =>
    dsimp only
    split
    · rename_i hphase
      refine .refused (fun other h ↦ ?_)
      cases hticket.symm.trans h
      exact hphase
    · rename_i hphase
      cases hepoch : mode.add s.currentEpoch 1 with
      | none => exact .panicked (not_fits_of_epoch hepoch) (.inl rfl)
      | some epoch =>
        cases hexpires : mode.add nowMs leaseTtlMs with
        | none =>
          exact .panicked (not_fits_of_expiry hexpires) (.inr ⟨epoch, hepoch, rfl⟩)
        | some expiresAtMs => exact .committed hticket (not_not.mp hphase) hepoch hexpires rfl

theorem abortHandoff_called (ticketId reason : String) :
    Called mode s (.abortHandoff ticketId reason) (s.abortHandoff ticketId reason).1
      (s.abortHandoff ticketId reason).2 := by
  unfold abortHandoff
  cases hticket : s.tickets.lookup ticketId with
  | none => exact .refused hticket
  | some ticket => exact .aborted hticket

theorem acquireLease_called (entityId : BitVec 32) (shardId : ShardId)
    (ttlMs nowMs : BitVec 64) :
    Called mode s (.acquireLease entityId shardId ttlMs nowMs)
      (s.acquireLease mode entityId shardId ttlMs nowMs).1
      (s.acquireLease mode entityId shardId ttlMs nowMs).2 := by
  unfold acquireLease
  cases hfree : (s.leases.lookup entityId).filter (·.bars shardId nowMs) with
  | some existing =>
    obtain ⟨hlease, hbars⟩ := Option.filter_eq_some_iff.mp hfree
    exact .refused ⟨existing, hlease, hbars⟩
  | none =>
    have hnone (old : OwnershipLease) (hold : s.leases.lookup entityId = some old) :
        old.bars shardId nowMs = false := by
      simpa [hold, Option.filter] using hfree
    cases hepoch : mode.add s.currentEpoch 1 with
    | none => exact .panicked (not_fits_of_epoch hepoch) (.inl rfl)
    | some epoch =>
      cases hexpires : mode.add nowMs ttlMs with
      | none =>
        exact .panicked (not_fits_of_expiry hexpires) (.inr ⟨epoch, hepoch, rfl⟩)
      | some expiresAtMs => exact .acquired rfl hnone hepoch hexpires

theorem step_called (mode : Overflow) (s : ShardCoordinator) (op : Op) :
    Called mode s op (step mode s op).1 (step mode s op).2 := by
  cases op with
  | registerShard shard => exact .registered
  | initiateHandoff ticketId playerId fromShard toShard entities =>
    exact initiateHandoff_called ticketId playerId fromShard toShard entities
  | prepareHandoff ticketId nowMs => exact prepareHandoff_called ticketId nowMs
  | commitHandoff ticketId leaseTtlMs nowMs =>
    exact commitHandoff_called ticketId leaseTtlMs nowMs
  | abortHandoff ticketId reason => exact abortHandoff_called ticketId reason
  | acquireLease entityId shardId ttlMs nowMs =>
    exact acquireLease_called entityId shardId ttlMs nowMs
  | reclaimExpiredLeases nowMs => exact .reclaimed

theorem getLease_setPhase (ticketId : String) (ticket : HandoffTicket) (phase : HandoffPhase)
    (entity : BitVec 32) : (s.setPhase ticketId ticket phase).getLease entity = s.getLease entity :=
  rfl

theorem getLease_grantAll (ticket : HandoffTicket) (expiresAtMs : BitVec 64)
    (entity : BitVec 32) :
    (s.grantAll ticket expiresAtMs).getLease entity =
      if entity ∈ ticket.entities then
        some ⟨entity, ticket.toShard, s.currentEpoch, expiresAtMs⟩
      else s.getLease entity :=
  lookup_foldl_insert _ _ _

theorem getLease_insert (entityId entity : BitVec 32) (lease : OwnershipLease)
    (epoch : BitVec 64) :
    ({ s with currentEpoch := epoch, leases := s.leases.insert entityId lease } :
      ShardCoordinator).getLease entity =
      if entity = entityId then some lease else s.getLease entity :=
  lookup_insert_ite entity lease

theorem getLease_retain (p : BitVec 32 → OwnershipLease → Bool) (entity : BitVec 32) :
    ({ s with leases := retain p s.leases } : ShardCoordinator).getLease entity =
      (s.getLease entity).filter (p entity) :=
  lookup_retain p s.leases

end Calls

end Aldivine.Sharding.Model
