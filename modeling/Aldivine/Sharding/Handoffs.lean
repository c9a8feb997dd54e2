import Aldivine.Foundation.Execution
import Aldivine.Sharding.Leases

namespace Aldivine.Sharding.Handoffs

open Foundation.Execution Foundation.Machine Model Leases

variable {mode : Overflow} {s s' : ShardCoordinator} {op : Op} {answer : Answer}
  {ticketId : String} {ticket : HandoffTicket}

inductive Moves : HandoffPhase → HandoffPhase → Prop
  | stay {phase : HandoffPhase} : Moves phase phase
  | prepare : Moves .initiated .prepared
  | commit : Moves .prepared .committed
  | abortInitiated {reason : String} : Moves .initiated (.aborted reason)
  | abortPrepared {reason : String} : Moves .prepared (.aborted reason)

inductive Final : HandoffPhase → Prop
  | committed : Final .committed
  | aborted {reason : String} : Final (.aborted reason)

def initiates (ticketId : String) (x : ShardCoordinator × Op) : Bool :=
  match x.2 with
  | .initiateHandoff id _ fromShard toShard _ =>
    id == ticketId && x.1.regions.contains fromShard && x.1.regions.contains toShard
  | _ => false

/-- A call leaves the ticket where it is, moved on at most, unless it puts a new one in the place of
one that is through. -/
def Advances (mode : Overflow) (s : ShardCoordinator) (op : Op) : Prop :=
  ∀ ticketId ticket, s.tickets.lookup ticketId = some ticket →
    (∃ phase, (step mode s op).1.tickets.lookup ticketId = some { ticket with phase := phase } ∧
      Moves ticket.phase phase) ∨
    Final ticket.phase ∧ initiates ticketId (s, op) = true

def lifetime (ticketId : String) (tr : List (ShardCoordinator × Op)) :
    List (ShardCoordinator × Op) :=
  since (initiates ticketId) tr

/-- The call gave every entity of the ticket to the target shard, under one epoch. -/
def MovedAll (mode : Overflow) (ticket : HandoffTicket) (x : ShardCoordinator × Op) : Prop :=
  ∀ entity ∈ ticket.entities, ∃ lease, (step mode x.1 x.2).1.getLease entity = some lease ∧
    lease.ownerShard = ticket.toShard ∧ lease.epoch = (step mode x.1 x.2).1.currentEpoch

/-- A ticket that is not committed has moved no lease, a committed one those of all its entities. -/
structure Atomic (mode : Overflow) (s : ShardCoordinator) (tr : List (ShardCoordinator × Op)) :
    Prop where
  untouched : ∀ ticketId ticket, s.tickets.lookup ticketId = some ticket →
    ticket.phase ≠ .committed → ∀ x ∈ lifetime ticketId tr, ∀ leaseTtlMs nowMs,
      x.2 = .commitHandoff ticketId leaseTtlMs nowMs → (step mode x.1 x.2).1.leases = x.1.leases
  moved : ∀ ticketId ticket, s.tickets.lookup ticketId = some ticket →
    ticket.phase = .committed → ∃ x ∈ lifetime ticketId tr, ∃ leaseTtlMs nowMs,
      x.2 = .commitHandoff ticketId leaseTtlMs nowMs ∧ MovedAll mode ticket x

/-- A ticket is aborted in progress, and a new one takes no place of one in progress. -/
def InOrder (s : ShardCoordinator) : Op → Prop
  | .initiateHandoff ticketId playerId fromShard toShard entities =>
    fromShard ∈ s.regions → toShard ∈ s.regions →
      ∀ ticket, s.tickets.lookup ticketId = some ticket →
        Final ticket.phase ∨
          ticket = ⟨ticketId, playerId, fromShard, toShard, entities, .initiated⟩
  | .abortHandoff ticketId reason =>
    ∀ ticket, s.tickets.lookup ticketId = some ticket →
      Final ticket.phase → ticket.phase = .aborted reason
  | _ => True

theorem initiates_iff :
    initiates ticketId (s, op) = true ↔
      ∃ playerId fromShard toShard entities,
        op = .initiateHandoff ticketId playerId fromShard toShard entities ∧
          fromShard ∈ s.regions ∧ toShard ∈ s.regions := by
  cases op with
  | initiateHandoff id playerId fromShard toShard entities =>
    simp only [initiates, Bool.and_eq_true, beq_iff_eq, List.contains_eq_mem, decide_eq_true_eq,
      Op.initiateHandoff.injEq]
    constructor
    · intro h
      exact ⟨playerId, fromShard, toShard, entities, ⟨h.1.1, rfl, rfl, rfl, rfl⟩, h.1.2, h.2⟩
    · intro h
      obtain ⟨_, _, _, _, ⟨rfl, rfl, rfl, rfl, rfl⟩, hfrom, hto⟩ := h
      exact ⟨⟨rfl, hfrom⟩, hto⟩
  | _ => simp [initiates]

theorem lookup_setPhase (phase : HandoffPhase) :
    (s.setPhase ticketId ticket phase).tickets.lookup ticketId =
      some { ticket with phase := phase } :=
  AList.lookup_insert s.tickets

theorem lookup_setPhase_ne {id : String} (hne : id ≠ ticketId) (phase : HandoffPhase) :
    (s.setPhase ticketId ticket phase).tickets.lookup id = s.tickets.lookup id :=
  AList.lookup_insert_ne hne

inductive Fate (mode : Overflow) (s : ShardCoordinator) (op : Op) (s' : ShardCoordinator)
    (ticketId : String) : Prop
  | kept (hkept : s'.tickets.lookup ticketId = s.tickets.lookup ticketId)
      (hleases : ∀ leaseTtlMs nowMs, op = .commitHandoff ticketId leaseTtlMs nowMs →
        s'.leases = s.leases)
      (hnew : initiates ticketId (s, op) = false)
  | initiated {playerId : BitVec 32} {fromShard toShard : ShardId} {entities : List (BitVec 32)}
      (hop : op = .initiateHandoff ticketId playerId fromShard toShard entities)
      (hfrom : fromShard ∈ s.regions) (hto : toShard ∈ s.regions)
      (hnew : s'.tickets.lookup ticketId =
        some ⟨ticketId, playerId, fromShard, toShard, entities, .initiated⟩)
  | prepared {ticket : HandoffTicket} {nowMs : BitVec 64} (hop : op = .prepareHandoff ticketId nowMs)
      (hticket : s.tickets.lookup ticketId = some ticket) (hphase : ticket.phase = .initiated)
      (hnew : s'.tickets.lookup ticketId = some { ticket with phase := .prepared })
  | committed {ticket : HandoffTicket} {leaseTtlMs nowMs : BitVec 64}
      (hop : op = .commitHandoff ticketId leaseTtlMs nowMs)
      (hticket : s.tickets.lookup ticketId = some ticket) (hphase : ticket.phase = .prepared)
      (hfits : Fits mode s nowMs leaseTtlMs)
      (hnew : s'.tickets.lookup ticketId = some { ticket with phase := .committed })
  | aborted {ticket : HandoffTicket} {reason : String} (hop : op = .abortHandoff ticketId reason)
      (hticket : s.tickets.lookup ticketId = some ticket)
      (hnew : s'.tickets.lookup ticketId = some { ticket with phase := .aborted reason })

theorem fate (hcalled : Called mode s op s' answer) (ticketId : String) :
    Fate mode s op s' ticketId := by
  have hrefused (hop : Refuses s op) : initiates ticketId (s, op) = false := by
    refine Bool.eq_false_iff.mpr (fun h ↦ ?_)
    obtain ⟨_, _, _, _, rfl, hfrom, hto⟩ := initiates_iff.mp h
    exact hop.elim (absurd hfrom) (absurd hto)
  cases hcalled with
  | refused hop => exact .kept rfl (fun _ _ _ ↦ rfl) (hrefused hop)
  | panicked hop hs' =>
    have hnew : initiates ticketId (s, op) = false := by
      refine Bool.eq_false_iff.mpr (fun h ↦ ?_)
      obtain ⟨_, _, _, _, rfl, -⟩ := initiates_iff.mp h
      exact hop
    obtain rfl | ⟨epoch, -, rfl⟩ := hs'
    · exact .kept rfl (fun _ _ _ ↦ rfl) hnew
    · exact .kept rfl (fun _ _ _ ↦ rfl) hnew
  | registered => exact .kept rfl nofun rfl
  | @initiated id playerId fromShard toShard entities _ hticket hfrom hto =>
    by_cases hid : ticketId = id
    · subst hid hticket
      exact .initiated rfl hfrom hto (AList.lookup_insert s.tickets)
    · exact .kept (AList.lookup_insert_ne hid) nofun (by simp [initiates, Ne.symm hid])
  | @prepared id ticket nowMs hticket hphase hfree =>
    by_cases hid : ticketId = id
    · subst hid
      exact .prepared rfl hticket hphase (lookup_setPhase .prepared)
    · exact .kept (lookup_setPhase_ne hid .prepared) nofun rfl
  | @committed id ticket _ leaseTtlMs nowMs epoch expiresAtMs hticket hphase hepoch hexpires hs' =>
    by_cases hid : ticketId = id
    · subst hid hs'
      exact .committed rfl hticket hphase (fits_iff.mpr ⟨⟨_, hepoch⟩, _, hexpires⟩)
        (lookup_setPhase .committed)
    · refine .kept ?_ (fun _ _ hop ↦ by cases hop; exact absurd rfl hid) rfl
      rw [hs', lookup_setPhase_ne hid .committed]
      rfl
  | @aborted id reason ticket hticket =>
    by_cases hid : ticketId = id
    · subst hid
      exact .aborted rfl hticket (lookup_setPhase (.aborted reason))
    · exact .kept (lookup_setPhase_ne hid (.aborted reason)) nofun rfl
  | acquired hlease hfree hepoch hexpires => exact .kept rfl nofun rfl
  | reclaimed => exact .kept rfl nofun rfl

theorem inOrder_of_advances (h : Advances mode s op) : InOrder s op := by
  cases op with
  | initiateHandoff ticketId playerId fromShard toShard entities =>
    intro hfrom hto ticket hticket
    have hnew : (step mode s (.initiateHandoff ticketId playerId fromShard toShard
        entities)).1.tickets.lookup ticketId =
        some ⟨ticketId, playerId, fromShard, toShard, entities, .initiated⟩ := by
      simp only [step, ShardCoordinator.initiateHandoff, List.any_beq', List.contains_eq_mem, hfrom,
        hto, decide_true, Bool.not_true, Bool.false_eq_true, if_false]
      exact AList.lookup_insert s.tickets
    rcases h ticketId ticket hticket with ⟨phase, hphase, hmoves⟩ | ⟨hfinal, -⟩
    · right
      obtain ⟨id, player, source, target, ents, old⟩ := ticket
      cases hphase.symm.trans hnew
      cases hmoves
      rfl
    · exact .inl hfinal
  | abortHandoff ticketId reason =>
    intro ticket hticket hfinal
    rcases h ticketId ticket hticket with ⟨phase, hphase, hmoves⟩ | ⟨-, hinit⟩
    · have hnew : (step mode s (.abortHandoff ticketId reason)).1.tickets.lookup ticketId =
          some { ticket with phase := .aborted reason } := by
        simp only [step, ShardCoordinator.abortHandoff, hticket]
        exact lookup_setPhase (.aborted reason)
      cases hphase.symm.trans hnew
      generalize ticket.phase = old at hmoves hfinal ⊢
      cases hmoves with
      | stay => rfl
      | abortInitiated => cases hfinal
      | abortPrepared => cases hfinal
    · cases hinit
  | _ => trivial

theorem advances_of_inOrder (h : InOrder s op) : Advances mode s op := by
  intro ticketId ticket hticket
  cases fate (step_called mode s op) ticketId with
  | kept hkept hleases hnew => exact .inl ⟨ticket.phase, hkept.trans hticket, .stay⟩
  | initiated hop hfrom hto hnew =>
    subst hop
    rcases h hfrom hto ticket hticket with hfinal | rfl
    · exact .inr ⟨hfinal, initiates_iff.mpr ⟨_, _, _, _, rfl, hfrom, hto⟩⟩
    · exact .inl ⟨.initiated, hnew, .stay⟩
  | prepared hop hticket' hphase hnew =>
    cases hticket.symm.trans hticket'
    exact .inl ⟨.prepared, hnew, hphase ▸ .prepare⟩
  | committed hop hticket' hphase hfits hnew =>
    cases hticket.symm.trans hticket'
    exact .inl ⟨.committed, hnew, hphase ▸ .commit⟩
  | @aborted ticket' reason hop hticket' hnew =>
    subst hop
    cases hticket.symm.trans hticket'
    refine .inl ⟨.aborted reason, hnew, ?_⟩
    have hfinal := h ticket hticket
    cases hphase : ticket.phase with
    | initiated => exact .abortInitiated
    | prepared => exact .abortPrepared
    | committed => cases hphase.symm.trans (hfinal (hphase ▸ .committed))
    | aborted old =>
      cases hphase.symm.trans (hfinal (hphase ▸ .aborted))
      exact .stay

theorem lifetime_concat_kept {tr : List (ShardCoordinator × Op)}
    (hnew : initiates ticketId (s, op) = false) :
    lifetime ticketId (tr ++ [(s, op)]) = lifetime ticketId tr ++ [(s, op)] :=
  since_concat_miss _ tr hnew

theorem lifetime_concat_initiated {tr : List (ShardCoordinator × Op)}
    (hnew : initiates ticketId (s, op) = true) : lifetime ticketId (tr ++ [(s, op)]) = [] :=
  since_concat_hit _ tr hnew

theorem untouched_step {tr : List (ShardCoordinator × Op)} (h : Atomic mode s tr)
    (hop : InOrder s op) (hticket : (step mode s op).1.tickets.lookup ticketId = some ticket)
    (hphase : ticket.phase ≠ .committed) :
    ∀ x ∈ lifetime ticketId (tr ++ [(s, op)]), ∀ leaseTtlMs nowMs,
      x.2 = .commitHandoff ticketId leaseTtlMs nowMs →
        (step mode x.1 x.2).1.leases = x.1.leases := by
  -- what the calls before and this call did
  have hextend (hnew : initiates ticketId (s, op) = false) (old : HandoffTicket)
      (hold : s.tickets.lookup ticketId = some old) (holdPhase : old.phase ≠ .committed)
      (hlast : ∀ leaseTtlMs nowMs, op = .commitHandoff ticketId leaseTtlMs nowMs →
        (step mode s op).1.leases = s.leases) :
      ∀ x ∈ lifetime ticketId (tr ++ [(s, op)]), ∀ leaseTtlMs nowMs,
        x.2 = .commitHandoff ticketId leaseTtlMs nowMs →
          (step mode x.1 x.2).1.leases = x.1.leases := by
    rw [lifetime_concat_kept hnew]
    intro x hx
    rcases List.mem_append.mp hx with hx | hx
    · exact h.untouched ticketId old hold holdPhase x hx
    · cases List.mem_singleton.mp hx
      exact hlast
  cases fate (step_called mode s op) ticketId with
  | kept hkept hleases hnew => exact hextend hnew ticket (hkept.symm.trans hticket) hphase hleases
  | initiated heq hfrom hto hnew =>
    rw [lifetime_concat_initiated (initiates_iff.mpr ⟨_, _, _, _, heq, hfrom, hto⟩)]
    exact fun x hx ↦ absurd hx List.not_mem_nil
  | prepared heq hold hphase hnew =>
    subst heq
    exact hextend rfl _ hold (by simp [hphase]) nofun
  | committed heq hold hphase' hfits hnew =>
    cases hticket.symm.trans hnew
    exact absurd rfl hphase
  | aborted heq hold hnew =>
    subst heq
    refine hextend rfl _ hold (fun hcommitted ↦ ?_) nofun
    -- a committed ticket is not aborted
    cases hcommitted.symm.trans (hop _ hold (hcommitted ▸ .committed))

theorem moved_step {tr : List (ShardCoordinator × Op)} (h : Atomic mode s tr)
    (hticket : (step mode s op).1.tickets.lookup ticketId = some ticket)
    (hphase : ticket.phase = .committed) :
    ∃ x ∈ lifetime ticketId (tr ++ [(s, op)]), ∃ leaseTtlMs nowMs,
      x.2 = .commitHandoff ticketId leaseTtlMs nowMs ∧ MovedAll mode ticket x := by
  cases fate (step_called mode s op) ticketId with
  | kept hkept hleases hnew =>
    obtain ⟨x, hx, hmoved⟩ := h.moved ticketId ticket (hkept.symm.trans hticket) hphase
    rw [lifetime_concat_kept hnew]
    exact ⟨x, List.mem_append_left _ hx, hmoved⟩
  | initiated heq hfrom hto hnew =>
    cases hticket.symm.trans hnew
    cases hphase
  | prepared heq hold hphase' hnew =>
    cases hticket.symm.trans hnew
    cases hphase
  | committed heq hold hphase' hfits hnew =>
    cases hticket.symm.trans hnew
    subst heq
    rw [lifetime_concat_kept rfl]
    refine ⟨_, List.mem_append_right _ List.mem_cons_self, _, _, rfl, ?_⟩
    intro entity hentity
    obtain ⟨lease, hlease, -, howner, hepoch⟩ := commit_grants hold hphase' hfits hentity
    exact ⟨lease, hlease, howner, hepoch⟩
  | aborted heq hold hnew =>
    cases hticket.symm.trans hnew
    cases hphase

theorem atomic_step {tr : List (ShardCoordinator × Op)} (h : Atomic mode s tr)
    (hop : InOrder s op) : Atomic mode (step mode s op).1 (tr ++ [(s, op)]) :=
  ⟨fun _ _ hticket hphase ↦ untouched_step h hop hticket hphase,
    fun _ _ hticket hphase ↦ moved_step h hticket hphase⟩

theorem atomic_new : Atomic mode .new [] where
  untouched _ _ hticket := by cases hticket
  moved _ _ hticket := by cases hticket

/-- Along a run, every ticket goes its way and moves its leases at once or not at all, exactly when
tickets are aborted in progress only and no ticket in progress is initiated over. -/
theorem handoffs_atomic_iff (mode : Overflow) (ops : List Op) :
    (∀ x ∈ trace (step mode) .new ops, Advances mode x.1 x.2) ∧
        (∀ before, before <+: ops →
          Atomic mode (run (step mode) .new before) (trace (step mode) .new before)) ↔
      ∀ x ∈ trace (step mode) .new ops, InOrder x.1 x.2 := by
  constructor
  · intro h x hx
    exact inOrder_of_advances (h.1 x hx)
  · intro h
    refine ⟨fun x hx ↦ advances_of_inOrder (h x hx), fun before hbefore ↦ ?_⟩
    obtain ⟨rest, rfl⟩ := hbefore
    rw [trace_append] at h
    exact invariant_trace (P := fun s op ↦ InOrder s op)
      (fun _ _ _ hatomic hop ↦ atomic_step hatomic hop) atomic_new before
      (fun x hx ↦ h x (List.mem_append_left _ hx))

def abortedAfterCommit : List Op :=
  [.registerShard 1, .registerShard 2, .initiateHandoff "t" 100 1 2 [501],
    .prepareHandoff "t" 1000, .commitHandoff "t" 30000 1000, .abortHandoff "t" "congested"]

theorem aborted_after_commit_moved :
    ¬ ((∀ x ∈ trace (step .wraps) .new abortedAfterCommit, Advances .wraps x.1 x.2) ∧
      ∀ before, before <+: abortedAfterCommit →
        Atomic .wraps (run (step .wraps) .new before) (trace (step .wraps) .new before)) := by
  intro h
  have hlast := h.1
    (run (step .wraps) .new (abortedAfterCommit.take 5), .abortHandoff "t" "congested")
    (by
      rw [← List.take_append_drop 5 abortedAfterCommit, trace_append]
      exact List.mem_append_right _ List.mem_cons_self)
  have hticket : (run (step .wraps) .new (abortedAfterCommit.take 5)).tickets.lookup "t" =
      some ⟨"t", 100, 1, 2, [501], .committed⟩ := by decide +kernel
  have hnew : (run (step .wraps) .new abortedAfterCommit).tickets.lookup "t" =
      some ⟨"t", 100, 1, 2, [501], .aborted "congested"⟩ := by decide +kernel
  rcases hlast "t" _ hticket with ⟨phase, hphase, hmoves⟩ | ⟨-, hinit⟩
  · cases hnew.symm.trans hphase
    cases hmoves
  · cases hinit

end Aldivine.Sharding.Handoffs
