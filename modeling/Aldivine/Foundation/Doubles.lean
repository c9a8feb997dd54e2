import Mathlib.Algebra.Order.Ring.Nat

namespace Aldivine.Foundation.Doubles

/-- The bits of the double next to `n`, for `n` below `2 ^ 64`; of two as near, the even one. -/
def ofNat (n : ℕ) : BitVec 64 :=
  if n = 0 then 0
  else
    let exponent := n.log2
    let scaled := n * 2 ^ 52 / 2 ^ exponent
    let rest := n * 2 ^ 52 % 2 ^ exponent
    let up := 2 ^ exponent < 2 * rest ∨ (2 ^ exponent = 2 * rest ∧ scaled % 2 = 1)
    BitVec.ofNat 64 ((exponent + 1022) * 2 ^ 52 + scaled + if up then 1 else 0)

/-- Toward zero, and from outside the range to the nearest end of it; what is not a number is
zero. -/
def toNat (x : BitVec 64) : ℕ :=
  let exponent := x.toNat / 2 ^ 52 % 2 ^ 11
  let fraction := x.toNat % 2 ^ 52
  if x.msb then 0
  else if exponent = 2047 then if fraction = 0 then 2 ^ 64 - 1 else 0
  else if exponent = 0 then 0
  else min ((2 ^ 52 + fraction) * 2 ^ exponent / 2 ^ 1075) (2 ^ 64 - 1)

section Whole

variable {n : ℕ}

theorem ofNat_of_lt (hpos : n ≠ 0) (h : n < 2 ^ 53) :
    ofNat n = BitVec.ofNat 64 ((n.log2 + 1022) * 2 ^ 52 + n * 2 ^ (52 - n.log2)) := by
  have hexponent : n.log2 < 53 := (Nat.log2_lt hpos).mpr h
  have hsplit : n * 2 ^ 52 = n * 2 ^ (52 - n.log2) * 2 ^ n.log2 := by
    rw [Nat.mul_assoc, ← Nat.pow_add, Nat.sub_add_cancel (by omega)]
  have hrest : n * 2 ^ 52 % 2 ^ n.log2 = 0 := by
    rw [hsplit]
    exact Nat.mul_mod_left _ _
  have hscaled : n * 2 ^ 52 / 2 ^ n.log2 = n * 2 ^ (52 - n.log2) := by
    rw [hsplit]
    exact Nat.mul_div_cancel _ (Nat.two_pow_pos _)
  have hup : ¬(2 ^ n.log2 < 0 ∨ (2 ^ n.log2 = 0 ∧ n * 2 ^ (52 - n.log2) % 2 = 1)) := by
    have hpow := Nat.two_pow_pos n.log2
    omega
  simp only [ofNat, if_neg hpos, hrest, hscaled, Nat.mul_zero, if_neg hup, Nat.add_zero]

theorem scaled_bounds (hpos : n ≠ 0) (h : n < 2 ^ 53) :
    2 ^ 52 ≤ n * 2 ^ (52 - n.log2) ∧ n * 2 ^ (52 - n.log2) < 2 ^ 53 := by
  have hexponent : n.log2 < 53 := (Nat.log2_lt hpos).mpr h
  have hlow : 2 ^ n.log2 ≤ n := Nat.log2_self_le hpos
  have hhigh : n < 2 ^ (n.log2 + 1) := Nat.lt_log2_self
  have hpow := Nat.two_pow_pos (52 - n.log2)
  constructor
  · calc 2 ^ 52 = 2 ^ n.log2 * 2 ^ (52 - n.log2) := by rw [← Nat.pow_add]; congr 1; omega
      _ ≤ n * 2 ^ (52 - n.log2) := Nat.mul_le_mul_right _ hlow
  · calc n * 2 ^ (52 - n.log2) < 2 ^ (n.log2 + 1) * 2 ^ (52 - n.log2) :=
        Nat.mul_lt_mul_of_pos_right hhigh hpow
      _ = 2 ^ 53 := by rw [← Nat.pow_add]; congr 1; omega

theorem toNat_ofNat_of_lt (h : n < 2 ^ 53) : toNat (ofNat n) = n := by
  by_cases hpos : n = 0
  · rw [hpos]
    decide
  have hexponent : n.log2 < 53 := (Nat.log2_lt hpos).mpr h
  obtain ⟨hlow, hhigh⟩ := scaled_bounds hpos h
  rw [ofNat_of_lt hpos h]
  generalize hs : n * 2 ^ (52 - n.log2) = scaled at *
  have hbits : (BitVec.ofNat 64 ((n.log2 + 1022) * 2 ^ 52 + scaled)).toNat =
      (n.log2 + 1022) * 2 ^ 52 + scaled := by
    rw [BitVec.toNat_ofNat]
    exact Nat.mod_eq_of_lt (by omega)
  have hmsb : (BitVec.ofNat 64 ((n.log2 + 1022) * 2 ^ 52 + scaled)).msb = false := by
    rw [BitVec.msb_eq_false_iff_two_mul_lt, hbits]
    omega
  have hfield : ((n.log2 + 1022) * 2 ^ 52 + scaled) / 2 ^ 52 % 2 ^ 11 = n.log2 + 1023 := by omega
  have hfraction : ((n.log2 + 1022) * 2 ^ 52 + scaled) % 2 ^ 52 = scaled - 2 ^ 52 := by omega
  have hcancel : ∀ k, 52 - n.log2 + (n.log2 + 1023) = k →
      n * 2 ^ (52 - n.log2) * 2 ^ (n.log2 + 1023) / 2 ^ k = n := by
    intro k hk
    rw [Nat.mul_assoc, ← Nat.pow_add, hk]
    exact Nat.mul_div_cancel n (Nat.two_pow_pos k)
  have hvalue : (2 ^ 52 + (scaled - 2 ^ 52)) * 2 ^ (n.log2 + 1023) / 2 ^ 1075 = n := by
    rw [Nat.add_sub_cancel' hlow, ← hs]
    exact hcancel 1075 (by omega)
  have hmin : min n (2 ^ 64 - 1) = n := by omega
  simp only [toNat, hbits, hmsb, hfield, hfraction, hvalue, Bool.false_eq_true, if_false]
  rw [if_neg (by omega), if_neg (by omega), hmin]

/-- Every whole number up to the first that has no double next to it on both sides is kept. -/
theorem toNat_ofNat (h : n ≤ 2 ^ 53) : toNat (ofNat n) = n := by
  rcases Nat.lt_or_eq_of_le h with hlt | heq
  · exact toNat_ofNat_of_lt hlt
  · rw [heq]
    decide +kernel

example : toNat (ofNat (2 ^ 53 + 1)) = 2 ^ 53 := by decide +kernel

end Whole

end Aldivine.Foundation.Doubles
