import Aldivine.Foundation.Wire
import Mathlib.Data.Nat.Bitwise

namespace Aldivine.Foundation.BitStrings

open Wire

/-- The `k` low bits of `n`, the most significant one first. -/
def toBits : ℕ → ℕ → List Bool
  | 0, _ => []
  | k + 1, n => n.testBit k :: toBits k n

def ofBits : List Bool → ℕ
  | [] => 0
  | bit :: bits => bit.toNat * 2 ^ bits.length + ofBits bits

/-- The bits of a byte string, those of a byte from the most significant one on. -/
def bitsOf (bytes : List UInt8) : List Bool := bytes.flatMap (fun b ↦ toBits 8 b.toNat)

@[simp] theorem length_toBits (k n : ℕ) : (toBits k n).length = k := by
  induction k with
  | zero => rfl
  | succ k ih => rw [toBits, List.length_cons, ih]

theorem ofBits_toBits (k n : ℕ) : ofBits (toBits k n) = n % 2 ^ k := by
  induction k with
  | zero => simp [toBits, ofBits, Nat.mod_one]
  | succ k ih =>
    have hbit : (n.testBit k).toNat = n / 2 ^ k % 2 := Nat.toNat_testBit n k
    rw [toBits, ofBits, length_toBits, ih, hbit, Nat.mod_pow_succ]
    ring

theorem toBits_add (j k n : ℕ) : toBits (j + k) n = toBits j (n / 2 ^ k) ++ toBits k n := by
  induction j with
  | zero => simp [toBits]
  | succ j ih =>
    have hbit : n.testBit (j + k) = (n / 2 ^ k).testBit j := by
      rw [Nat.testBit_div_two_pow]
    rw [Nat.succ_add, toBits, toBits, ih, hbit, List.cons_append]

theorem toBits_mod (j k n : ℕ) (h : j ≤ k) : toBits j (n % 2 ^ k) = toBits j n := by
  induction j with
  | zero => rfl
  | succ j ih =>
    have hlow : decide (j < k) = true := decide_eq_true h
    rw [toBits, toBits, ih (by omega), Nat.testBit_mod_two_pow, hlow, Bool.true_and]

theorem ofBits_append (xs ys : List Bool) :
    ofBits (xs ++ ys) = ofBits xs * 2 ^ ys.length + ofBits ys := by
  induction xs with
  | nil => simp [ofBits]
  | cons x xs ih =>
    rw [List.cons_append, ofBits, ofBits, ih, List.length_append]
    ring

theorem ofBits_lt (bits : List Bool) : ofBits bits < 2 ^ bits.length := by
  induction bits with
  | nil => exact Nat.one_pos
  | cons bit bits ih =>
    have hbit : bit.toNat * 2 ^ bits.length ≤ 1 * 2 ^ bits.length :=
      Nat.mul_le_mul_right _ bit.toNat_le
    rw [ofBits, List.length_cons, Nat.pow_succ]
    omega

theorem toBits_ofBits (bits : List Bool) : toBits bits.length (ofBits bits) = bits := by
  induction bits with
  | nil => rfl
  | cons bit bits ih =>
    have hlt := ofBits_lt bits
    have hhigh : (bit.toNat * 2 ^ bits.length + ofBits bits) / 2 ^ bits.length = bit.toNat := by
      rw [Nat.add_comm, Nat.add_mul_div_right _ _ (Nat.two_pow_pos _), Nat.div_eq_of_lt hlt,
        Nat.zero_add]
    have hlow : (bit.toNat * 2 ^ bits.length + ofBits bits) % 2 ^ bits.length = ofBits bits := by
      rw [Nat.mul_add_mod', Nat.mod_eq_of_lt hlt]
    have hbit : toBits 1 bit.toNat = [bit] := by cases bit <;> rfl
    rw [ofBits, List.length_cons, Nat.add_comm, toBits_add, hhigh, hbit,
      ← toBits_mod bits.length bits.length _ le_rfl, hlow, ih, List.singleton_append]

@[simp] theorem bitsOf_nil : bitsOf [] = [] := rfl

@[simp] theorem bitsOf_cons (b : UInt8) (bytes : List UInt8) :
    bitsOf (b :: bytes) = toBits 8 b.toNat ++ bitsOf bytes := List.flatMap_cons

@[simp] theorem bitsOf_append (xs ys : List UInt8) : bitsOf (xs ++ ys) = bitsOf xs ++ bitsOf ys :=
  List.flatMap_append

@[simp] theorem length_bitsOf (bytes : List UInt8) : (bitsOf bytes).length = 8 * bytes.length := by
  induction bytes with
  | nil => rfl
  | cons b bytes ih =>
    rw [bitsOf_cons, List.length_append, ih, length_toBits, List.length_cons]
    ring

theorem bitsOf_drop (n : ℕ) (bytes : List UInt8) :
    (bitsOf bytes).drop (8 * n) = bitsOf (bytes.drop n) := by
  induction n generalizing bytes with
  | zero => rfl
  | succ n ih =>
    cases bytes with
    | nil => simp
    | cons b bytes =>
      rw [bitsOf_cons, List.drop_succ_cons, ← ih, Nat.mul_succ, Nat.add_comm,
        List.drop_append, length_toBits]
      simp

theorem bitsOf_take (n : ℕ) (bytes : List UInt8) :
    (bitsOf bytes).take (8 * n) = bitsOf (bytes.take n) := by
  induction n generalizing bytes with
  | zero => rfl
  | succ n ih =>
    cases bytes with
    | nil => simp
    | cons b bytes =>
      have hfirst : (toBits 8 b.toNat).take (8 + 8 * n) = toBits 8 b.toNat := by
        apply List.take_of_length_le
        rw [length_toBits]
        omega
      rw [bitsOf_cons, List.take_succ_cons, bitsOf_cons, ← ih, Nat.mul_succ, Nat.add_comm,
        List.take_append, length_toBits, hfirst, Nat.add_sub_cancel_left]

theorem ofBits_bitsOf (bytes : List UInt8) : ofBits (bitsOf bytes) = ofBE bytes := by
  induction bytes with
  | nil => rfl
  | cons b bytes ih =>
    have hbyte : b.toNat % 2 ^ 8 = b.toNat := Nat.mod_eq_of_lt b.toNat_lt
    have hpow : 2 ^ (8 * bytes.length) = 256 ^ bytes.length := pow_mul 2 8 bytes.length
    rw [bitsOf_cons, ofBits_append, ofBits_toBits, ih, length_bitsOf, hbyte, hpow, ofBE]

theorem bitsOf_injective {xs ys : List UInt8} (h : bitsOf xs = bitsOf ys) : xs = ys := by
  have hlength : xs.length = ys.length := by
    have hbits := congrArg List.length h
    rw [length_bitsOf, length_bitsOf] at hbits
    omega
  rw [← toBE_ofBE xs, ← toBE_ofBE ys, ← ofBits_bitsOf, ← ofBits_bitsOf, h, hlength]

theorem bitsOf_toBE (k n : ℕ) : bitsOf (toBE k n) = toBits (8 * k) n := by
  induction k with
  | zero => rfl
  | succ k ih =>
    have hpow : 2 ^ (8 * k) = 256 ^ k := pow_mul 2 8 k
    have hbyte : (UInt8.ofNat (n / 256 ^ k)).toNat = n / 256 ^ k % 2 ^ 8 := UInt8.toNat_ofNat'
    rw [toBE, bitsOf_cons, ih, hbyte, toBits_mod 8 8 _ le_rfl, ← hpow, ← toBits_add, Nat.mul_succ,
      Nat.add_comm]

end Aldivine.Foundation.BitStrings
