import Aldivine.Foundation.Execution
import Aldivine.Sharding.Leases

namespace Aldivine.Sharding.Epochs

open Foundation.Execution Foundation.Machine Model Leases

variable {mode : Overflow} {s s' : ShardCoordinator} {op : Op} {answer : Answer}
  {lease : OwnershipLease}

def granted (s : ShardCoordinator) : Op → List (BitVec 32)
  | .acquireLease entityId _ _ _ => [entityId]
  | .commitHandoff ticketId _ _ => ((s.tickets.lookup ticketId).map (·.entities)).getD []
  | _ => []

/-- The leases that an accepted call leaves in the table for these entities. -/
def written (mode : Overflow) (s : ShardCoordinator) (op : Op) : List OwnershipLease :=
  match step mode s op with
  | (s', .ok _) => (granted s op).filterMap s'.getLease
  | _ => []

/-- An accepted call writes a lease for each of its entities, among them the one it hands out, and
every other lease in the table was there before. -/
structure Writes (mode : Overflow) (s : ShardCoordinator) (op : Op) : Prop where
  stored : ∀ reply, (step mode s op).2 = .ok reply → ∀ entity ∈ granted s op,
    ∃ lease ∈ written mode s op, (step mode s op).1.getLease entity = some lease ∧
      lease.entityId = entity
  handed : ∀ lease, (step mode s op).2 = .ok (.lease lease) → lease ∈ written mode s op
  others : ∀ entity lease, (step mode s op).1.getLease entity = some lease →
    s.getLease entity = some lease ∨ lease ∈ written mode s op ∧ lease.entityId = entity

/-- Counting up the epoch stays below `2 ^ 64`, in the calls that do so. -/
def EpochFits (mode : Overflow) (s : ShardCoordinator) : Op → Prop
  | .commitHandoff ticketId leaseTtlMs nowMs =>
    mode = .wraps → ¬ Refuses s (.commitHandoff ticketId leaseTtlMs nowMs) →
      s.currentEpoch.toNat + 1 < 2 ^ 64
  | .acquireLease entityId shardId ttlMs nowMs =>
    mode = .wraps → ¬ Refuses s (.acquireLease entityId shardId ttlMs nowMs) →
      s.currentEpoch.toNat + 1 < 2 ^ 64
  | _ => True

theorem add_one_succ {epoch : BitVec 64} (hepoch : mode.add s.currentEpoch 1 = some epoch)
    (hfits : mode = .wraps → s.currentEpoch.toNat + 1 < 2 ^ 64) :
    epoch.toNat = s.currentEpoch.toNat + 1 :=
  word_exact hepoch hfits

theorem epoch_called (hcalled : Called mode s op s' answer) (hfits : EpochFits mode s op) :
    s'.currentEpoch = s.currentEpoch ∨ s'.currentEpoch.toNat = s.currentEpoch.toNat + 1 := by
  cases hcalled with
  | refused hop => exact .inl rfl
  | panicked hop hs' =>
    obtain rfl | ⟨epoch, hepoch, rfl⟩ := hs'
    · exact .inl rfl
    · refine .inr (add_one_succ hepoch (fun hmode ↦ ?_))
      have hnever (nowMs ttlMs : BitVec 64) : Fits mode s nowMs ttlMs :=
        fun hpanics ↦ by cases hmode.symm.trans hpanics
      cases op with
      | commitHandoff ticketId leaseTtlMs nowMs => exact absurd (hnever _ _) hop
      | acquireLease entityId shardId ttlMs nowMs => exact absurd (hnever _ _) hop
      | _ => exact hop.elim
  | registered => exact .inl rfl
  | initiated hticket hfrom hto => exact .inl rfl
  | prepared hticket hphase hfree => exact .inl rfl
  | aborted hticket => exact .inl rfl
  | reclaimed => exact .inl rfl
  | committed hticket hphase hepoch hexpires hs' =>
    subst hs'
    refine .inr (add_one_succ hepoch (fun hmode ↦ hfits hmode (fun hrefuses ↦ ?_)))
    exact hrefuses _ hticket hphase
  | acquired hlease hfree hepoch hexpires =>
    refine .inr (add_one_succ hepoch (fun hmode ↦ hfits hmode (fun hrefuses ↦ ?_)))
    obtain ⟨old, hold, hbars⟩ := hrefuses
    exact absurd hbars (by simp [hfree old hold])

theorem epoch_le_step (hfits : EpochFits mode s op) :
    s.currentEpoch ≤ (step mode s op).1.currentEpoch := by
  rw [BitVec.le_def]
  rcases epoch_called (step_called mode s op) hfits with heq | hsucc
  · rw [heq]
  · omega

section Writing

variable {entity : BitVec 32} {reply : Reply}

theorem mem_written_iff : lease ∈ written mode s op ↔ (∃ reply, (step mode s op).2 = .ok reply) ∧
    ∃ entity ∈ granted s op, (step mode s op).1.getLease entity = some lease := by
  unfold written
  generalize step mode s op = result
  obtain ⟨s', answer⟩ := result
  cases answer with
  | ok reply => simp
  | err e => simp
  | panic => simp

theorem getLease_granted (hcalled : Called mode s op s' (.ok reply)) (hfits : EpochFits mode s op)
    (hentity : entity ∈ granted s op) (hlease : s'.getLease entity = some lease) :
    lease.epoch = s'.currentEpoch ∧ s'.currentEpoch.toNat = s.currentEpoch.toNat + 1 := by
  cases hcalled with
  | registered | initiated | prepared | aborted | reclaimed => exact absurd hentity List.not_mem_nil
  | committed hticket hphase hepoch hexpires hs' =>
    have hsucc := add_one_succ hepoch (fun hmode ↦ hfits hmode (fun h ↦ h _ hticket hphase))
    rw [granted, hticket, Option.map_some, Option.getD_some] at hentity
    rw [hs', getLease_setPhase, getLease_grantAll, if_pos hentity] at hlease
    cases hlease
    rw [hs']
    exact ⟨rfl, hsucc⟩
  | acquired hgranted hfree hepoch hexpires =>
    have hsucc := add_one_succ hepoch (fun hmode ↦ hfits hmode (fun h ↦ by
      obtain ⟨old, hold, hbars⟩ := h
      exact absurd hbars (by simp [hfree old hold])))
    rw [getLease_insert, if_pos (List.mem_singleton.mp hentity)] at hlease
    cases hlease
    subst hgranted
    exact ⟨rfl, hsucc⟩

/-- The call wrote the lease: it is in the table, under the epoch counted up to. -/
theorem mem_written (hlease : lease ∈ written mode s op) (hfits : EpochFits mode s op) :
    lease.epoch = (step mode s op).1.currentEpoch ∧
      (step mode s op).1.currentEpoch.toNat = s.currentEpoch.toNat + 1 := by
  obtain ⟨⟨reply, hok⟩, entity, hentity, hget⟩ := mem_written_iff.mp hlease
  have hcalled := step_called mode s op
  rw [hok] at hcalled
  exact getLease_granted hcalled hfits hentity hget

theorem exists_granted (hcalled : Called mode s op s' (.ok reply)) (hentity : entity ∈ granted s op) :
    ∃ lease, s'.getLease entity = some lease ∧ lease.entityId = entity := by
  cases hcalled with
  | registered | initiated | prepared | aborted | reclaimed => exact absurd hentity List.not_mem_nil
  | committed hticket hphase hepoch hexpires hs' =>
    rw [granted, hticket, Option.map_some, Option.getD_some] at hentity
    rw [hs', getLease_setPhase, getLease_grantAll, if_pos hentity]
    exact ⟨_, rfl, rfl⟩
  | acquired hgranted hfree hepoch hexpires =>
    obtain rfl := List.mem_singleton.mp hentity
    subst hgranted
    rw [getLease_insert, if_pos rfl]
    exact ⟨_, rfl, rfl⟩

theorem getLease_handed (hcalled : Called mode s op s' (.ok (.lease lease))) :
    ∃ entity ∈ granted s op, s'.getLease entity = some lease := by
  cases hcalled with
  | @acquired entityId shardId ttlMs nowMs epoch expiresAtMs lease hgranted hfree hepoch hexpires =>
    refine ⟨entityId, List.mem_singleton_self _, ?_⟩
    rw [getLease_insert, if_pos rfl]

theorem getLease_others (hcalled : Called mode s op s' answer)
    (hlease : s'.getLease entity = some lease) :
    s.getLease entity = some lease ∨
      (∃ reply, answer = .ok reply) ∧ entity ∈ granted s op ∧ lease.entityId = entity := by
  cases hcalled with
  | refused | registered | initiated | prepared | aborted => exact .inl hlease
  | panicked hop hs' =>
    obtain rfl | ⟨epoch, -, rfl⟩ := hs'
    · exact .inl hlease
    · exact .inl hlease
  | committed hticket hphase hepoch hexpires hs' =>
    rw [hs', getLease_setPhase, getLease_grantAll] at hlease
    split at hlease
    · rename_i hentity
      cases hlease
      refine .inr ⟨⟨_, rfl⟩, ?_, rfl⟩
      rwa [granted, hticket, Option.map_some, Option.getD_some]
    · exact .inl hlease
  | acquired hgranted hfree hepoch hexpires =>
    rw [getLease_insert] at hlease
    split at hlease
    · cases hlease
      subst hgranted entity
      exact .inr ⟨⟨_, rfl⟩, List.mem_singleton_self _, rfl⟩
    · exact .inl hlease
  | reclaimed =>
    rw [getLease_retain, Option.filter_eq_some_iff] at hlease
    exact .inl hlease.1

theorem writes (mode : Overflow) (s : ShardCoordinator) (op : Op) : Writes mode s op where
  stored reply hok entity hentity := by
    have hcalled := step_called mode s op
    rw [hok] at hcalled
    obtain ⟨lease, hlease, hid⟩ := exists_granted hcalled hentity
    exact ⟨lease, mem_written_iff.mpr ⟨⟨reply, hok⟩, entity, hentity, hlease⟩, hlease, hid⟩
  handed lease hok := by
    have hcalled := step_called mode s op
    rw [hok] at hcalled
    exact mem_written_iff.mpr ⟨⟨_, hok⟩, getLease_handed hcalled⟩
  others entity lease hlease := by
    rcases getLease_others (step_called mode s op) hlease with hkept | ⟨hok, hentity, hid⟩
    · exact .inl hkept
    · exact .inr ⟨mem_written_iff.mpr ⟨hok, entity, hentity, hlease⟩, hid⟩

end Writing

def Behind (s : ShardCoordinator) : Prop :=
  ∀ entity lease, s.getLease entity = some lease → lease.epoch ≤ s.currentEpoch

theorem behind_step (hbehind : Behind s) (hfits : EpochFits mode s op) :
    Behind (step mode s op).1 := by
  intro entity lease hlease
  cases getLease_called (step_called mode s op) hlease with
  | kept hkept => exact BitVec.le_trans (hbehind entity lease hkept) (epoch_le_step hfits)
  | committed hop hticket hphase hfits hentity howner hepoch => rw [hepoch]; exact BitVec.le_refl _
  | acquired hop hfree howner hepoch => rw [hepoch]; exact BitVec.le_refl _

theorem epoch_le_run (ops : List Op)
    (hfits : ∀ x ∈ trace (step mode) s ops, EpochFits mode x.1 x.2) :
    s.currentEpoch ≤ (run (step mode) s ops).currentEpoch :=
  invariant_run (I := fun s' : ShardCoordinator ↦ s.currentEpoch ≤ s'.currentEpoch)
    (fun _ _ hle hop ↦ BitVec.le_trans hle (epoch_le_step hop)) (BitVec.le_refl _) ops hfits

theorem behind_run (ops : List Op)
    (hfits : ∀ x ∈ trace (step mode) .new ops, EpochFits mode x.1 x.2) :
    Behind (run (step mode) .new ops) :=
  invariant_run (fun _ _ hbehind hop ↦ behind_step hbehind hop)
    (fun _ _ hlease ↦ by cases hlease) ops hfits

variable {ops first second : List Op}

theorem fits_before (hpre : first <+: ops)
    (hfits : ∀ x ∈ trace (step mode) s ops, EpochFits mode x.1 x.2) :
    ∀ x ∈ trace (step mode) s first, EpochFits mode x.1 x.2 := by
  obtain ⟨rest, rfl⟩ := hpre
  rw [trace_append] at hfits
  exact fun x hx ↦ hfits x (List.mem_append_left _ hx)

theorem fits_last (hpre : first ++ [op] <+: ops)
    (hfits : ∀ x ∈ trace (step mode) s ops, EpochFits mode x.1 x.2) :
    EpochFits mode (run (step mode) s first) op := by
  refine fits_before hpre hfits (run (step mode) s first, op) ?_
  rw [trace_concat]
  exact List.mem_append_right _ List.mem_cons_self

theorem ahead_of_earlier (hfirst : first <+: second) (hsecond : second ++ [op] <+: ops)
    (hfits : ∀ x ∈ trace (step mode) s ops, EpochFits mode x.1 x.2)
    (hlease : lease ∈ written mode (run (step mode) s second) op) :
    (run (step mode) s first).currentEpoch < lease.epoch := by
  have hrun := fits_before ((List.prefix_append second [op]).trans hsecond) hfits
  obtain ⟨hepoch, hsucc⟩ := mem_written hlease (fits_last hsecond hfits)
  obtain ⟨mid, rfl⟩ := hfirst
  rw [trace_append] at hrun
  have hle := epoch_le_run mid (fun x hx ↦ hrun x (List.mem_append_right _ hx))
  rw [← run_append, BitVec.le_def] at hle
  rw [BitVec.lt_def, hepoch, hsucc]
  omega

theorem epoch_ne_of_shorter {op' : Op} {lease' : OwnershipLease}
    (hfirst : first ++ [op] <+: second) (hsecond : second ++ [op'] <+: ops)
    (hfits : ∀ x ∈ trace (step mode) s ops, EpochFits mode x.1 x.2)
    (hlease : lease ∈ written mode (run (step mode) s first) op)
    (hlease' : lease' ∈ written mode (run (step mode) s second) op') :
    lease.epoch ≠ lease'.epoch := by
  have hpre := hfirst.trans ((List.prefix_append second [op']).trans hsecond)
  obtain ⟨hepoch, -⟩ := mem_written hlease (fits_last hpre hfits)
  have hlt := ahead_of_earlier hfirst hsecond hfits hlease'
  rw [run_concat, ← hepoch] at hlt
  exact BitVec.ne_of_lt hlt

/-- A lease is fenced off from every earlier lease of its entity, reclaimed ones included, and two
calls never write the same epoch. -/
theorem epochs_fenced (mode : Overflow) (ops : List Op)
    (hfits : ∀ x ∈ trace (step mode) .new ops, EpochFits mode x.1 x.2) :
    (∀ x ∈ trace (step mode) .new ops, Writes mode x.1 x.2) ∧
    (∀ second op, second ++ [op] <+: ops →
      ∀ lease ∈ written mode (run (step mode) .new second) op, ∀ first old, first <+: second →
        (run (step mode) .new first).getLease lease.entityId = some old →
        old.epoch < lease.epoch) ∧
    ∀ first op second op', first ++ [op] <+: ops → second ++ [op'] <+: ops → first ≠ second →
      ∀ lease ∈ written mode (run (step mode) .new first) op,
      ∀ lease' ∈ written mode (run (step mode) .new second) op', lease.epoch ≠ lease'.epoch := by
  refine ⟨fun x _ ↦ writes mode x.1 x.2, ?_, ?_⟩
  · intro second op hsecond lease hlease first old hfirst hold
    have hpre := hfirst.trans ((List.prefix_append second [op]).trans hsecond)
    have hbehind := behind_run first (fits_before hpre hfits) _ _ hold
    have hahead := ahead_of_earlier hfirst hsecond hfits hlease
    rw [BitVec.le_def] at hbehind
    rw [BitVec.lt_def] at hahead ⊢
    exact hbehind.trans_lt hahead
  · intro first op second op' hfirst hsecond hne lease hlease lease' hlease'
    rcases List.prefix_or_prefix_of_prefix hfirst hsecond with hpre | hpre
    · rcases List.prefix_concat_iff.mp hpre with heq | hshorter
      · exact absurd (List.append_inj_left' heq rfl) hne
      · exact epoch_ne_of_shorter hshorter hsecond hfits hlease hlease'
    · rcases List.prefix_concat_iff.mp hpre with heq | hshorter
      · exact absurd (List.append_inj_left' heq rfl).symm hne
      · exact (epoch_ne_of_shorter hshorter hfirst hfits hlease' hlease).symm

/-- A handoff after which the lease runs out, is reclaimed and is acquired anew. -/
def reclaimedHandoff : List Op :=
  [.registerShard 1, .registerShard 2, .acquireLease 501 1 30000 1000,
    .initiateHandoff "t" 100 1 2 [501], .prepareHandoff "t" 1000, .commitHandoff "t" 30000 1000,
    .reclaimExpiredLeases 31000, .acquireLease 501 1 30000 31000]

theorem reclaimedHandoff_fenced :
    written .wraps (run (step .wraps) .new (reclaimedHandoff.take 5)) (.commitHandoff "t" 30000 1000)
        = [⟨501, 2, 3, 31000⟩] ∧
      written .wraps (run (step .wraps) .new (reclaimedHandoff.take 7))
        (.acquireLease 501 1 30000 31000) = [⟨501, 1, 4, 61000⟩] ∧
      (3 : BitVec 64) ≠ 4 := by
  have hcommit : written .wraps (run (step .wraps) .new (reclaimedHandoff.take 5))
      (.commitHandoff "t" 30000 1000) = [⟨501, 2, 3, 31000⟩] := by decide +kernel
  have hacquire : written .wraps (run (step .wraps) .new (reclaimedHandoff.take 7))
      (.acquireLease 501 1 30000 31000) = [⟨501, 1, 4, 61000⟩] := by decide +kernel
  have hfits : ∀ x ∈ trace (step .wraps) .new reclaimedHandoff, EpochFits .wraps x.1 x.2 := by
    have hroom : ∀ x ∈ trace (step .wraps) .new reclaimedHandoff,
        x.1.currentEpoch.toNat + 1 < 2 ^ 64 := by decide +kernel
    intro x hx
    obtain ⟨s, op⟩ := x
    cases op with
    | commitHandoff ticketId leaseTtlMs nowMs => exact fun _ _ ↦ hroom _ hx
    | acquireLease entityId shardId ttlMs nowMs => exact fun _ _ ↦ hroom _ hx
    | _ => trivial
  refine ⟨hcommit, hacquire, ?_⟩
  refine (epochs_fenced .wraps reclaimedHandoff hfits).2.2 (reclaimedHandoff.take 5) _
    (reclaimedHandoff.take 7) _ ⟨reclaimedHandoff.drop 6, rfl⟩ ⟨[], rfl⟩ (by decide)
    ⟨501, 2, 3, 31000⟩ ?_ ⟨501, 1, 4, 61000⟩ ?_
  · rw [hcommit]
    exact List.mem_singleton_self _
  · rw [hacquire]
    exact List.mem_singleton_self _

end Aldivine.Sharding.Epochs
