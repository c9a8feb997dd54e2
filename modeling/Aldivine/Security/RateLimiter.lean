import Aldivine.Foundation.Execution
import Aldivine.Foundation.Table
import Mathlib.Algebra.Order.Field.Rat
import Mathlib.Tactic.Linarith
import Mathlib.Tactic.Positivity
import Mathlib.Tactic.Ring

namespace Aldivine.Security.RateLimiter

open Foundation.Execution Foundation.Table

structure Bucket where
  tokens : ℚ
  lastUpdateMs : ℕ
deriving DecidableEq

structure DdosRateLimiter where
  capacity : ℕ
  refillRatePerSec : ℕ
  buckets : AList (fun _ : String ↦ Bucket)

/-- The tokens at `now`, when what has passed since the last update is refilled. -/
def refill (capacity rate : ℕ) (b : Bucket) (now : ℕ) : ℚ :=
  let elapsedSec : ℚ := ((now - b.lastUpdateMs : ℕ) : ℚ) / 1000
  min (b.tokens + elapsedSec * rate) capacity

namespace DdosRateLimiter

def new (capacity refillRatePerSec : ℕ) : DdosRateLimiter := ⟨capacity, refillRatePerSec, ∅⟩

/-- `or_insert((capacity, now_ms))`. -/
def bucket (l : DdosRateLimiter) (key : String) (now : ℕ) : Bucket :=
  (l.buckets.lookup key).getD ⟨l.capacity, now⟩

def checkAllow (l : DdosRateLimiter) (key : String) (nowMs : ℕ) : DdosRateLimiter × Bool :=
  let tokens := refill l.capacity l.refillRatePerSec (l.bucket key nowMs) nowMs
  if 1 ≤ tokens then
    ({ l with buckets := l.buckets.insert key ⟨tokens - 1, nowMs⟩ }, true)
  else ({ l with buckets := l.buckets.insert key ⟨tokens, nowMs⟩ }, false)

end DdosRateLimiter

structure Call where
  key : String
  now : ℕ
deriving DecidableEq

def step (l : DdosRateLimiter) (c : Call) : DdosRateLimiter × Bool := l.checkAllow c.key c.now

def allowed (key : String) (a b : ℚ) (answered : List (Call × Bool)) : ℕ :=
  answered.countP (fun x ↦ x.2 && decide (x.1.key = key ∧ a ≤ x.1.now ∧ (x.1.now : ℚ) ≤ b))

def Ordered (calls : List Call) : Prop := calls.Pairwise (fun c d ↦ c.now ≤ d.now)

variable {capacity rate : ℕ} {l : DdosRateLimiter} {key : String} {now : ℕ} {a b : ℚ}
  {calls : List Call}

theorem refill_le (bucket : Bucket) : refill capacity rate bucket now ≤ capacity := min_le_right _ _

theorem refill_nonneg {bucket : Bucket} (h : 0 ≤ bucket.tokens) :
    0 ≤ refill capacity rate bucket now := by
  unfold refill
  positivity

theorem refill_le_elapsed {bucket : Bucket} (h : bucket.lastUpdateMs ≤ now) :
    refill capacity rate bucket now ≤
      bucket.tokens + rate * ((now : ℚ) - bucket.lastUpdateMs) / 1000 := by
  refine (min_le_left _ _).trans (le_of_eq ?_)
  rw [Nat.cast_sub h]
  ring

/-- Every bucket holds between no tokens and the capacity, and was updated by a call. -/
structure Sound (capacity rate : ℕ) (calls : List Call) (l : DdosRateLimiter) : Prop where
  capacity_eq : l.capacity = capacity
  rate_eq : l.refillRatePerSec = rate
  tokens : ∀ key bucket, l.buckets.lookup key = some bucket →
    0 ≤ bucket.tokens ∧ bucket.tokens ≤ capacity
  updated : ∀ key bucket, l.buckets.lookup key = some bucket →
    ∃ c ∈ calls, c.now = bucket.lastUpdateMs

theorem sound_new (capacity rate : ℕ) : Sound capacity rate [] (.new capacity rate) :=
  ⟨rfl, rfl, fun key bucket h ↦ (by cases h), fun key bucket h ↦ (by cases h)⟩

theorem Sound.bucket_tokens (h : Sound capacity rate calls l) (key : String) (now : ℕ) :
    0 ≤ (l.bucket key now).tokens ∧ (l.bucket key now).tokens ≤ capacity := by
  unfold DdosRateLimiter.bucket
  cases hlookup : l.buckets.lookup key with
  | none => exact ⟨Nat.cast_nonneg _, by rw [Option.getD_none, h.capacity_eq]⟩
  | some bucket => exact h.tokens key bucket hlookup

theorem Sound.step_eq (h : Sound capacity rate calls l) (c : Call) :
    ∃ left ok, step l c = ({ l with buckets := l.buckets.insert c.key ⟨left, c.now⟩ }, ok) ∧
      left + (if ok then 1 else 0) = refill capacity rate (l.bucket c.key c.now) c.now ∧
      0 ≤ left ∧ left ≤ capacity := by
  have hmost : refill capacity rate (l.bucket c.key c.now) c.now ≤ capacity := refill_le _
  have hleast : 0 ≤ refill capacity rate (l.bucket c.key c.now) c.now :=
    refill_nonneg (h.bucket_tokens c.key c.now).1
  unfold step DdosRateLimiter.checkAllow
  rw [h.capacity_eq, h.rate_eq]
  dsimp only
  split_ifs with hone
  · exact ⟨_, true, rfl, by simp, by linarith, by linarith⟩
  · exact ⟨_, false, rfl, by simp, hleast, hmost⟩

theorem Sound.step (h : Sound capacity rate calls l) (c : Call) :
    Sound capacity rate (calls ++ [c]) (step l c).1 := by
  obtain ⟨left, ok, hstep, -, hleast, hmost⟩ := h.step_eq c
  rw [hstep]
  refine ⟨h.capacity_eq, h.rate_eq, fun key bucket hlookup ↦ ?_, fun key bucket hlookup ↦ ?_⟩
  · rw [lookup_insert_ite] at hlookup
    split_ifs at hlookup
    · cases hlookup
      exact ⟨hleast, hmost⟩
    · exact h.tokens key bucket hlookup
  · rw [lookup_insert_ite] at hlookup
    split_ifs at hlookup
    · cases hlookup
      exact ⟨c, by simp, rfl⟩
    · obtain ⟨d, hd, hnow⟩ := h.updated key bucket hlookup
      exact ⟨d, List.mem_append_left _ hd, hnow⟩

theorem sound_run (capacity rate : ℕ) (calls : List Call) :
    Sound capacity rate calls (run RateLimiter.step (.new capacity rate) calls) := by
  induction calls using List.reverseRecOn with
  | nil => exact sound_new capacity rate
  | append_singleton calls c ih =>
    rw [run_concat]
    exact ih.step c

/-- From `a` on, calls are paid for with what the bucket held at `a`, the capacity at most, and with
what was refilled since then. -/
structure Spent (capacity rate : ℕ) (key : String) (a b : ℚ) (l : DdosRateLimiter) (n : ℕ) :
    Prop where
  total : (n : ℚ) ≤ capacity + rate * (b - a) / 1000
  inside : ∀ bucket, l.buckets.lookup key = some bucket → a ≤ bucket.lastUpdateMs →
    (bucket.lastUpdateMs : ℚ) ≤ b →
    n + bucket.tokens ≤ capacity + rate * (bucket.lastUpdateMs - a) / 1000
  before : (∀ bucket, l.buckets.lookup key = some bucket → (bucket.lastUpdateMs : ℚ) < a) → n = 0

theorem allowed_concat (key : String) (a b : ℚ) (answered : List (Call × Bool)) (c : Call)
    (ok : Bool) : allowed key a b (answered ++ [(c, ok)]) = allowed key a b answered +
      if ok && decide (c.key = key ∧ a ≤ c.now ∧ (c.now : ℚ) ≤ b) then 1 else 0 := by
  rw [allowed, List.countP_append, List.countP_singleton]
  rfl

theorem growth_mono {x y : ℚ} (h : x ≤ y) :
    (capacity : ℚ) + rate * (x - a) / 1000 ≤ capacity + rate * (y - a) / 1000 := by
  gcongr

theorem Spent.refilled {n : ℕ} (hspent : Spent capacity rate key a b l n)
    (h : Sound capacity rate calls l) (hlast : ∀ d ∈ calls, d.now ≤ now) (ha : a ≤ now)
    (hb : (now : ℚ) ≤ b) :
    n + refill capacity rate (l.bucket key now) now ≤ capacity + rate * (now - a) / 1000 := by
  have hfresh (hn : n = 0) :
      n + refill capacity rate (l.bucket key now) now ≤ capacity + rate * (now - a) / 1000 := by
    have hmost : refill capacity rate (l.bucket key now) now ≤ capacity := refill_le _
    have hgrown : (0 : ℚ) ≤ rate * (now - a) / 1000 := by
      have : 0 ≤ now - a := by linarith
      positivity
    rw [hn, Nat.cast_zero]
    linarith
  by_cases hold : ∃ bucket, l.buckets.lookup key = some bucket ∧ a ≤ bucket.lastUpdateMs
  · obtain ⟨bucket, hlookup, hale⟩ := hold
    obtain ⟨d, hd, hnow⟩ := h.updated key bucket hlookup
    have hle : bucket.lastUpdateMs ≤ now := hnow ▸ hlast d hd
    have hcast : (bucket.lastUpdateMs : ℚ) ≤ now := Nat.cast_le.mpr hle
    have hbucket : l.bucket key now = bucket := by
      rw [DdosRateLimiter.bucket, hlookup, Option.getD_some]
    have hpaid := hspent.inside bucket hlookup hale (hcast.trans hb)
    have hmore : refill capacity rate bucket now ≤ _ := refill_le_elapsed hle
    rw [hbucket]
    calc (n : ℚ) + refill capacity rate bucket now
        ≤ n + (bucket.tokens + rate * (now - bucket.lastUpdateMs) / 1000) := by gcongr
      _ ≤ capacity + rate * (bucket.lastUpdateMs - a) / 1000 +
          rate * (now - bucket.lastUpdateMs) / 1000 := by linarith
      _ = capacity + rate * (now - a) / 1000 := by ring
  · refine hfresh (hspent.before (fun bucket hlookup ↦ ?_))
    by_contra hnot
    exact hold ⟨bucket, hlookup, not_lt.mp hnot⟩

theorem Spent.inside_step {n : ℕ} (hspent : Spent capacity rate key a b l n)
    (h : Sound capacity rate calls l) (hlast : ∀ d ∈ calls, d.now ≤ now) (ha : a ≤ now)
    (hb : (now : ℚ) ≤ b) :
    Spent capacity rate key a b (step l ⟨key, now⟩).1
      (n + if (step l ⟨key, now⟩).2 then 1 else 0) := by
  obtain ⟨left, ok, hstep, hleft, hleast, -⟩ := h.step_eq ⟨key, now⟩
  have hpaid := hspent.refilled h hlast ha hb
  rw [← hleft] at hpaid
  rw [hstep]
  dsimp only
  have hcount : ((n + if ok then 1 else 0 : ℕ) : ℚ) = n + if ok then 1 else 0 := by
    cases ok <;> simp
  refine ⟨?_, fun bucket hlookup _ _ ↦ ?_, fun hall ↦ ?_⟩
  · rw [hcount]
    exact le_trans (by linarith) (growth_mono hb)
  · rw [AList.lookup_insert] at hlookup
    cases hlookup
    rw [hcount]
    dsimp only
    linarith
  · exact absurd (hall _ (AList.lookup_insert _)) (not_lt.mpr ha)

theorem Spent.outside_step {n : ℕ} (hspent : Spent capacity rate key a b l n)
    (h : Sound capacity rate calls l) {c : Call} (hlast : ∀ d ∈ calls, d.now ≤ c.now)
    (hout : ¬(c.key = key ∧ a ≤ c.now ∧ (c.now : ℚ) ≤ b)) :
    Spent capacity rate key a b (RateLimiter.step l c).1 n := by
  obtain ⟨left, ok, hstep, -⟩ := h.step_eq c
  rw [hstep]
  dsimp only
  refine ⟨hspent.total, fun bucket hlookup ha hb ↦ ?_, fun hall ↦ hspent.before ?_⟩
  · dsimp only at hlookup
    rw [lookup_insert_ite] at hlookup
    split_ifs at hlookup with hkey
    · cases hlookup
      exact absurd ⟨hkey.symm, ha, hb⟩ hout
    · exact hspent.inside bucket hlookup ha hb
  · intro bucket hlookup
    obtain ⟨d, hd, hnow⟩ := h.updated key bucket hlookup
    have hcast : (bucket.lastUpdateMs : ℚ) ≤ c.now := Nat.cast_le.mpr (hnow ▸ hlast d hd)
    by_cases hkey : key = c.key
    · have hbefore := hall ⟨left, c.now⟩ (by rw [lookup_insert_ite, if_pos hkey])
      exact hcast.trans_lt hbefore
    · exact hall bucket (by rwa [lookup_insert_ite, if_neg hkey])

theorem spent_run (hab : a ≤ b) (hordered : Ordered calls) :
    Spent capacity rate key a b (run step (.new capacity rate) calls)
      (allowed key a b (answers step (.new capacity rate) calls)) := by
  induction calls using List.reverseRecOn with
  | nil =>
    refine ⟨?_, fun bucket h ↦ (by cases h), fun _ ↦ rfl⟩
    have hnonneg : 0 ≤ b - a := by linarith
    change ((0 : ℕ) : ℚ) ≤ _
    rw [Nat.cast_zero]
    positivity
  | append_singleton calls c ih =>
    obtain ⟨hcalls, -, hlast⟩ := List.pairwise_append.mp hordered
    have hspent := ih hcalls
    have hsound := sound_run capacity rate calls
    have hearlier : ∀ d ∈ calls, d.now ≤ c.now :=
      fun d hd ↦ hlast d hd c (List.mem_singleton_self c)
    rw [run_concat, answers_concat, allowed_concat]
    by_cases hin : c.key = key ∧ a ≤ c.now ∧ (c.now : ℚ) ≤ b
    · obtain ⟨rfl, ha, hb⟩ := hin
      simp only [ha, hb, and_self, decide_true, Bool.and_true]
      exact hspent.inside_step hsound hearlier ha hb
    · simp only [hin, decide_false, Bool.and_false, Bool.false_eq_true, if_false, Nat.add_zero]
      exact hspent.outside_step hsound hearlier hin

structure Alike (key : String) (l l' : DdosRateLimiter) : Prop where
  capacity_eq : l'.capacity = l.capacity
  rate_eq : l'.refillRatePerSec = l.refillRatePerSec
  lookup_eq : l'.buckets.lookup key = l.buckets.lookup key

theorem Alike.step {l' : DdosRateLimiter} {c : Call} (h : Alike key l l') (hc : c.key = key) :
    (step l' c).2 = (step l c).2 ∧
      Alike key (RateLimiter.step l c).1 (RateLimiter.step l' c).1 := by
  subst hc
  unfold RateLimiter.step DdosRateLimiter.checkAllow DdosRateLimiter.bucket
  rw [h.capacity_eq, h.rate_eq, h.lookup_eq]
  dsimp only
  split_ifs
  · exact ⟨rfl, rfl, rfl, by rw [AList.lookup_insert, AList.lookup_insert]⟩
  · exact ⟨rfl, rfl, rfl, by rw [AList.lookup_insert, AList.lookup_insert]⟩

theorem Alike.step_other {l' : DdosRateLimiter} {c : Call} (h : Alike key l l') (hc : c.key ≠ key) :
    Alike key (RateLimiter.step l c).1 l' := by
  have hkey : key ≠ c.key := Ne.symm hc
  unfold RateLimiter.step DdosRateLimiter.checkAllow
  dsimp only
  split_ifs
  · exact ⟨h.capacity_eq, h.rate_eq, by rw [AList.lookup_insert_ne hkey, h.lookup_eq]⟩
  · exact ⟨h.capacity_eq, h.rate_eq, by rw [AList.lookup_insert_ne hkey, h.lookup_eq]⟩

theorem answers_key (capacity rate : ℕ) (key : String) (calls : List Call) :
    (answers step (.new capacity rate) calls).filter (fun x ↦ decide (x.1.key = key)) =
      answers step (.new capacity rate) (calls.filter (fun c ↦ decide (c.key = key))) := by
  have hnew : Alike key (.new capacity rate) (.new capacity rate) := ⟨rfl, rfl, rfl⟩
  exact answers_filter (p := fun c : Call ↦ decide (c.key = key))
    (fun _ _ _ hc h ↦ h.step (of_decide_eq_true hc))
    (fun _ _ _ hc h ↦ h.step_other (of_decide_eq_false hc)) hnew calls

/-- In no interval are more calls for a key allowed than the capacity and what is refilled in it,
the tokens stay between none and the capacity, and keys do not interfere. -/
theorem limiter_bound (capacity rate : ℕ) (calls : List Call) (hordered : Ordered calls)
    (key : String) :
    (∀ a b : ℚ, a ≤ b → (allowed key a b (answers step (.new capacity rate) calls) : ℚ) ≤
      capacity + rate * (b - a) / 1000) ∧
    (∀ before, before <+: calls → ∀ key bucket,
      (run step (.new capacity rate) before).buckets.lookup key = some bucket →
        0 ≤ bucket.tokens ∧ bucket.tokens ≤ capacity) ∧
    (answers step (.new capacity rate) calls).filter (fun x ↦ decide (x.1.key = key)) =
      answers step (.new capacity rate) (calls.filter (fun c ↦ decide (c.key = key))) :=
  ⟨fun _ _ hab ↦ (spent_run hab hordered).total,
    fun before _ ↦ (sound_run capacity rate before).tokens,
    answers_key capacity rate key calls⟩

/-- Two tokens and one more in each second: three of four calls within a second are allowed. -/
theorem limiter_bound_burst :
    allowed "a" 0 1000 (answers step (.new 2 1) [⟨"a", 0⟩, ⟨"a", 0⟩, ⟨"a", 500⟩, ⟨"a", 1000⟩]) = 3 ∧
    (allowed "a" 0 1000
      (answers step (.new 2 1) [⟨"a", 0⟩, ⟨"a", 0⟩, ⟨"a", 500⟩, ⟨"a", 1000⟩]) : ℚ) ≤
        (2 : ℕ) + (1 : ℕ) * (1000 - 0) / 1000 := by
  have hordered : Ordered [⟨"a", 0⟩, ⟨"a", 0⟩, ⟨"a", 500⟩, ⟨"a", 1000⟩] := by
    unfold Ordered
    decide
  exact ⟨by decide +kernel, (limiter_bound 2 1 _ hordered "a").1 0 1000 (by norm_num)⟩

end Aldivine.Security.RateLimiter
