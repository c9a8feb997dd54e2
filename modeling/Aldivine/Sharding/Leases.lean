import Aldivine.Foundation.Execution
import Aldivine.Sharding.Model

namespace Aldivine.Sharding.Leases

open Foundation.Execution Foundation.Machine Foundation.Table Model

variable {mode : Overflow} {s s' : ShardCoordinator} {op : Op} {answer : Answer}
  {entity : BitVec 32} {lease : OwnershipLease}

/-- How a lease that stands in the table after a call came there. -/
inductive Origin (mode : Overflow) (s : ShardCoordinator) (op : Op) (s' : ShardCoordinator)
    (entity : BitVec 32) (lease : OwnershipLease) : Prop
  | kept (hlease : s.getLease entity = some lease)
  | committed {ticketId : String} {leaseTtlMs nowMs : BitVec 64} {ticket : HandoffTicket}
      (hop : op = .commitHandoff ticketId leaseTtlMs nowMs)
      (hticket : s.tickets.lookup ticketId = some ticket) (hphase : ticket.phase = .prepared)
      (hfits : Fits mode s nowMs leaseTtlMs) (hentity : entity ∈ ticket.entities)
      (howner : lease.ownerShard = ticket.toShard) (hepoch : lease.epoch = s'.currentEpoch)
  | acquired {shardId : ShardId} {ttlMs nowMs : BitVec 64}
      (hop : op = .acquireLease entity shardId ttlMs nowMs)
      (hfree : ∀ old, s.getLease entity = some old → old.bars shardId nowMs = false)
      (howner : lease.ownerShard = shardId) (hepoch : lease.epoch = s'.currentEpoch)

theorem getLease_called (hcalled : Called mode s op s' answer)
    (hlease : s'.getLease entity = some lease) : Origin mode s op s' entity lease := by
  cases hcalled with
  | refused hop => exact .kept hlease
  | panicked hop hs' =>
    obtain rfl | ⟨epoch, -, rfl⟩ := hs'
    · exact .kept hlease
    · exact .kept hlease
  | registered => exact .kept hlease
  | initiated hticket hfrom hto => exact .kept hlease
  | prepared hticket hphase hfree => exact .kept hlease
  | aborted hticket => exact .kept hlease
  | committed hticket hphase hepoch hexpires hs' =>
    rw [hs', getLease_setPhase, getLease_grantAll] at hlease
    split at hlease
    · cases hlease
      refine .committed rfl hticket hphase (fits_iff.mpr ⟨⟨_, hepoch⟩, _, hexpires⟩) ‹_› rfl ?_
      rw [hs']
      rfl
    · exact .kept hlease
  | acquired hgranted hfree hepoch hexpires =>
    rw [getLease_insert] at hlease
    split at hlease
    · cases hlease
      subst hgranted entity
      exact .acquired rfl hfree rfl rfl
    · exact .kept hlease
  | reclaimed =>
    rw [getLease_retain, Option.filter_eq_some_iff] at hlease
    exact .kept hlease.1

/-- A commit that goes through gives every entity of the ticket to the target shard. -/
theorem commit_grants {ticketId : String} {ticket : HandoffTicket} {leaseTtlMs nowMs : BitVec 64}
    (hticket : s.tickets.lookup ticketId = some ticket) (hphase : ticket.phase = .prepared)
    (hfits : Fits mode s nowMs leaseTtlMs) (hentity : entity ∈ ticket.entities) :
    ∃ lease, (step mode s (.commitHandoff ticketId leaseTtlMs nowMs)).1.getLease entity =
        some lease ∧ lease.entityId = entity ∧ lease.ownerShard = ticket.toShard ∧
      lease.epoch = (step mode s (.commitHandoff ticketId leaseTtlMs nowMs)).1.currentEpoch := by
  generalize hop : Op.commitHandoff ticketId leaseTtlMs nowMs = op
  have hcalled := step_called mode s op
  generalize (step mode s op).1 = s' at hcalled ⊢
  generalize (step mode s op).2 = answer at hcalled
  subst hop
  cases hcalled with
  | refused hop => exact absurd hphase (hop ticket hticket)
  | panicked hop hs' => exact absurd hfits hop
  | committed hticket' hphase' hepoch hexpires hs' =>
    cases hticket.symm.trans hticket'
    rw [hs', getLease_setPhase, getLease_grantAll, if_pos hentity]
    exact ⟨_, rfl, rfl, rfl, rfl⟩

/-- A call takes a running lease from its owner only as the commit of a handoff from that owner. A
call that is not told the time takes none. -/
def Exclusive (mode : Overflow) (s : ShardCoordinator) (op : Op) : Prop :=
  ∀ entity old new, s.getLease entity = some old →
    (∀ nowMs, op.nowMs = some nowMs → nowMs < old.expiresAtMs) →
    (step mode s op).1.getLease entity = some new → new.ownerShard ≠ old.ownerShard →
    ∃ ticketId leaseTtlMs nowMs ticket, op = .commitHandoff ticketId leaseTtlMs nowMs ∧
      s.tickets.lookup ticketId = some ticket ∧ ticket.fromShard = old.ownerShard

/-- At a commit, every lease that would be a conflict for `prepare_handoff` at that time is already
the target shard's. -/
def StillFree (mode : Overflow) (s : ShardCoordinator) : Op → Prop
  | .commitHandoff ticketId leaseTtlMs nowMs =>
    ∀ ticket, s.tickets.lookup ticketId = some ticket → ticket.phase = .prepared →
      Fits mode s nowMs leaseTtlMs → ∀ entity ∈ ticket.entities, ∀ lease,
        s.getLease entity = some lease → lease.bars ticket.fromShard nowMs →
        lease.ownerShard = ticket.toShard
  | _ => True

theorem bars_iff {shardId : ShardId} {nowMs : BitVec 64} :
    lease.bars shardId nowMs ↔ lease.ownerShard ≠ shardId ∧ nowMs < lease.expiresAtMs := by
  simp [OwnershipLease.bars]

theorem stillFree_of_exclusive (h : Exclusive mode s op) : StillFree mode s op := by
  cases op with
  | commitHandoff ticketId leaseTtlMs nowMs =>
    intro ticket hticket hphase hfits entity hentity old hold hbars
    obtain ⟨hother, hlive⟩ := bars_iff.mp hbars
    by_contra hne
    obtain ⟨new, hnew, -, howner, -⟩ := commit_grants hticket hphase hfits hentity
    have hmoved : new.ownerShard ≠ old.ownerShard := fun heq ↦ hne (heq.symm.trans howner)
    have hnow (t : BitVec 64) (ht : some nowMs = some t) : t < old.expiresAtMs := by
      cases ht
      exact hlive
    obtain ⟨_, _, _, ticket', hop, hticket', hfrom⟩ := h entity old new hold hnow hnew hmoved
    cases hop
    cases hticket.symm.trans hticket'
    exact hother hfrom.symm
  | _ => trivial

theorem exclusive_of_stillFree (h : StillFree mode s op) : Exclusive mode s op := by
  intro entity old new hold hlive hnew hmoved
  cases getLease_called (step_called mode s op) hnew with
  | kept hkept =>
    cases hold.symm.trans hkept
    exact absurd rfl hmoved
  | committed hop hticket hphase hfits hentity howner hepoch =>
    subst hop
    refine ⟨_, _, _, _, rfl, hticket, ?_⟩
    -- otherwise the lease is a conflict that the commit does not look for
    by_contra hfrom
    have hbars := bars_iff.mpr ⟨fun heq ↦ hfrom heq.symm, hlive _ rfl⟩
    have htarget := h _ hticket hphase hfits entity hentity old hold hbars
    exact hmoved (howner.trans htarget.symm)
  | acquired hop hfree howner hepoch =>
    subst hop
    have hbars := bars_iff.mpr ⟨fun heq ↦ hmoved (howner.trans heq.symm), hlive _ rfl⟩
    exact absurd hbars (by simp [hfree old hold])

/-- Along a run, running leases change hands by handoffs of their owner only, exactly when every
commit still meets the check of the preparation. -/
theorem exclusive_run_iff (mode : Overflow) (ops : List Op) :
    (∀ x ∈ trace (step mode) .new ops, Exclusive mode x.1 x.2) ↔
      ∀ x ∈ trace (step mode) .new ops, StillFree mode x.1 x.2 := by
  constructor
  · intro h x hx
    exact stillFree_of_exclusive (h x hx)
  · intro h x hx
    exact exclusive_of_stillFree (h x hx)

/-- Shard 3 acquires the entity after the handoff from 1 to 2 was prepared. -/
def lateAcquisition : List Op :=
  [.registerShard 1, .registerShard 2, .initiateHandoff "t" 100 1 2 [501],
    .prepareHandoff "t" 1000, .acquireLease 501 3 30000 1000, .commitHandoff "t" 30000 1000]

theorem late_acquisition_stolen :
    (lateAcquisition.filterMap Op.nowMs).Pairwise (· ≤ ·) ∧
      ¬ ∀ x ∈ trace (step .wraps) .new lateAcquisition, Exclusive .wraps x.1 x.2 := by
  refine ⟨by decide, fun h ↦ ?_⟩
  have hlast := h (run (step .wraps) .new (lateAcquisition.take 5), .commitHandoff "t" 30000 1000)
    (by
      rw [← List.take_append_drop 5 lateAcquisition, trace_append]
      exact List.mem_append_right _ List.mem_cons_self)
  obtain ⟨_, _, _, ticket, hop, hticket, hfrom⟩ := hlast 501 ⟨501, 3, 2, 31000⟩ ⟨501, 2, 3, 31000⟩
    (by decide +kernel) (fun t ht ↦ by cases ht; decide) (by decide +kernel) (by decide)
  cases hop
  have hone : (run (step .wraps) .new (lateAcquisition.take 5)).tickets.lookup "t" =
      some ⟨"t", 100, 1, 2, [501], .prepared⟩ := by decide +kernel
  cases hone.symm.trans hticket
  exact absurd hfrom (by decide)

end Aldivine.Sharding.Leases
