import Aldivine.Foundation.Machine
import Mathlib.Algebra.Order.Group.Abs
import Mathlib.Algebra.Order.Group.Unbundled.Int

namespace Aldivine.Clocks.Samples

open Foundation.Machine

/-- The fields of a sample and of a result are the values of their `i64` words. -/
structure TimeSample where
  t0 : ℤ
  t1 : ℤ
  t2 : ℤ
deriving DecidableEq

structure SyncResult where
  offsetMs : ℤ
  rttMs : ℤ
  jitterMs : ℤ
deriving DecidableEq

def Fits (i : ℤ) : Prop := -2 ^ 63 ≤ i ∧ i < 2 ^ 63

instance (i : ℤ) : Decidable (Fits i) := inferInstanceAs (Decidable (_ ∧ _))

def i64 (mode : Overflow) (i : ℤ) : Option ℤ :=
  if Fits i then some i
  else
    match mode with
    | .wraps => some (i.bmod (2 ^ 64))
    | .panics => none

def SyncResult.fromSample (mode : Overflow) (s : TimeSample) (t3 : ℤ) : Option SyncResult := do
  let rtt ← i64 mode ((← i64 mode (t3 - s.t0)) - (← i64 mode (s.t2 - s.t1)))
  let rtt := max rtt 0
  let sum ← i64 mode ((← i64 mode (s.t1 - s.t0)) + (← i64 mode (s.t2 - t3)))
  return ⟨sum.tdiv 2, rtt, 0⟩

/-- A round between a client and a server whose clock the client's is ahead of by `difference`. -/
structure Exchange where
  sent : ℤ
  difference : ℤ
  outbound : ℕ
  processing : ℕ
  inbound : ℕ

namespace Exchange

def sample (e : Exchange) : TimeSample where
  t0 := e.sent
  t1 := e.sent - e.difference + e.outbound
  t2 := e.sent - e.difference + e.outbound + e.processing

def t3 (e : Exchange) : ℤ := e.sample.t2 + e.inbound + e.difference

/-- The timestamps and what is computed from them stay inside the range of `i64`. -/
structure InRange (e : Exchange) : Prop where
  stamps : ∀ t ∈ [e.sample.t0, e.sample.t1, e.sample.t2, e.t3], Fits t
  differences : ∀ t ∈ [e.t3 - e.sample.t0, e.sample.t2 - e.sample.t1, e.sample.t1 - e.sample.t0,
    e.sample.t2 - e.t3, (e.t3 - e.sample.t0) - (e.sample.t2 - e.sample.t1),
    (e.sample.t1 - e.sample.t0) + (e.sample.t2 - e.t3)], Fits t

/-- What a round should yield: `client_now = server_now + offset_ms`. -/
structure Estimates (e : Exchange) (r : SyncResult) : Prop where
  symmetric : e.outbound = e.inbound → r.rttMs = 2 * e.outbound ∧ r.offsetMs = e.difference
  error_le : |r.offsetMs - e.difference| ≤ (r.rttMs + 1) / 2

end Exchange

variable {mode : Overflow} {e : Exchange}

theorem i64_of_fits {i : ℤ} (h : Fits i) : i64 mode i = some i := if_pos h

theorem tdiv_two (i : ℤ) : i.tdiv 2 = if 0 ≤ i then i / 2 else (i + 1) / 2 := by
  have hsign : Int.sign 2 = 1 := rfl
  rw [Int.tdiv_eq_ediv, hsign]
  split <;> split <;> omega

/-- The round trip comes out right, and the offset of an exchange without asymmetry is what the
server's clock is ahead. -/
theorem fromSample_eq (h : e.InRange) :
    SyncResult.fromSample mode e.sample e.t3 =
      some ⟨(e.outbound - e.inbound - 2 * e.difference : ℤ).tdiv 2, e.outbound + e.inbound, 0⟩ := by
  obtain ⟨hround, hheld, hout, hback, hrtt, hsum⟩ := by
    simpa only [List.forall_mem_cons, List.not_mem_nil, false_implies, implies_true, and_true]
      using h.differences
  have htrip : max ((e.t3 - e.sample.t0) - (e.sample.t2 - e.sample.t1)) 0 =
      (e.outbound + e.inbound : ℤ) := by
    simp only [Exchange.sample, Exchange.t3]
    omega
  have hoffset : (e.sample.t1 - e.sample.t0) + (e.sample.t2 - e.t3) =
      (e.outbound - e.inbound - 2 * e.difference : ℤ) := by
    simp only [Exchange.sample, Exchange.t3]
    omega
  rw [hoffset] at hsum
  simp only [SyncResult.fromSample, i64_of_fits hround, i64_of_fits hheld, i64_of_fits hout,
    i64_of_fits hback, i64_of_fits hrtt, hoffset, i64_of_fits hsum, htrip, Option.bind_eq_bind,
    Option.bind_some, Option.pure_def]

/-- With the sign turned, the result is what a round should yield: it says how far the server's
clock is ahead. -/
theorem fromSample_reversed (h : e.InRange) :
    ∃ r, SyncResult.fromSample mode e.sample e.t3 = some r ∧
      Exchange.Estimates e { r with offsetMs := -r.offsetMs } := by
  refine ⟨_, fromSample_eq h, ⟨fun hsame ↦ ?_, ?_⟩⟩
  · dsimp only
    rw [tdiv_two]
    omega
  · dsimp only
    rw [abs_le, tdiv_two]
    omega

/-- 20 ms there, 10 ms held, 24 ms back, the client 9 ms ahead. -/
theorem fromSample_within : Exchange.InRange ⟨1000, 9, 20, 10, 24⟩ ∧
    ∃ r, SyncResult.fromSample .panics (Exchange.sample ⟨1000, 9, 20, 10, 24⟩)
      (Exchange.t3 ⟨1000, 9, 20, 10, 24⟩) = some r ∧
        Exchange.Estimates ⟨1000, 9, 20, 10, 24⟩ { r with offsetMs := -r.offsetMs } := by
  have hrange : Exchange.InRange ⟨1000, 9, 20, 10, 24⟩ := ⟨by decide, by decide⟩
  exact ⟨hrange, fromSample_reversed hrange⟩

/-- The documented offset comes out only where the clocks differ by less than the round trip hides,
and without asymmetry only where they agree. -/
theorem fromSample_iff (mode : Overflow) (e : Exchange) (h : e.InRange) :
    ∃ r, SyncResult.fromSample mode e.sample e.t3 = some r ∧ (e.Estimates r ↔
      (e.outbound = e.inbound → e.difference = 0) ∧
        2 * e.difference ≤ e.outbound + (e.outbound + e.inbound) % 2 ∧
        -(2 * e.difference) ≤ e.inbound + (e.outbound + e.inbound) % 2) := by
  refine ⟨_, fromSample_eq h, ?_⟩
  constructor
  · intro hright
    have hsymmetric := hright.symmetric
    have herror := abs_le.mp hright.error_le
    dsimp only at hsymmetric herror
    rw [tdiv_two] at hsymmetric herror
    omega
  · intro hwhen
    refine ⟨fun hsame ↦ ?_, ?_⟩
    · have hzero := hwhen.1 hsame
      dsimp only
      rw [tdiv_two]
      omega
    · dsimp only
      rw [tdiv_two, abs_le]
      omega

/-- The client is a second ahead, and is told that it is a second behind. -/
theorem ahead_turned : (Exchange.InRange ⟨5000, 1000, 50, 10, 50⟩) ∧
    SyncResult.fromSample .panics (Exchange.sample ⟨5000, 1000, 50, 10, 50⟩)
      (Exchange.t3 ⟨5000, 1000, 50, 10, 50⟩) = some ⟨-1000, 100, 0⟩ ∧
    ¬ Exchange.Estimates ⟨5000, 1000, 50, 10, 50⟩ ⟨-1000, 100, 0⟩ := by
  refine ⟨⟨by decide, by decide⟩, by decide, fun h ↦ ?_⟩
  have hoffset := (h.symmetric rfl).2
  cases hoffset

end Aldivine.Clocks.Samples
