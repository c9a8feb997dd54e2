import Aldivine.Foundation.BitStrings
import Mathlib.Analysis.SpecialFunctions.Pow.NthRootLemmas
import Mathlib.Data.Nat.Prime.Basic

namespace Aldivine.Foundation.Digests

open BitStrings Wire

section Sha256

/-! SHA-256 as FIPS 180-4 has it, over bit strings. -/

abbrev Word := BitVec 32

def rotr (n : ℕ) (x : Word) : Word := x >>> n ||| x <<< (32 - n)

def ch (x y z : Word) : Word := (x &&& y) ^^^ (~~~x &&& z)

def maj (x y z : Word) : Word := (x &&& y) ^^^ (x &&& z) ^^^ (y &&& z)

def bigSigma₀ (x : Word) : Word := rotr 2 x ^^^ rotr 13 x ^^^ rotr 22 x

def bigSigma₁ (x : Word) : Word := rotr 6 x ^^^ rotr 11 x ^^^ rotr 25 x

def smallSigma₀ (x : Word) : Word := rotr 7 x ^^^ rotr 18 x ^^^ x >>> 3

def smallSigma₁ (x : Word) : Word := rotr 17 x ^^^ rotr 19 x ^^^ x >>> 10

/-- The prime numbers below 312: there are 64. -/
def primes : List ℕ := (List.range 312).filter (fun n ↦ decide (Nat.Prime n))

/-- The first 32 bits of the fractional part of an `n`th root. -/
def rootFraction (n a : ℕ) : Word := .ofNat 32 (Nat.nthRoot n (a * 2 ^ (32 * n)))

def constant (t : ℕ) : Word := rootFraction 3 (primes.getD t 0)

structure State where
  a : Word
  b : Word
  c : Word
  d : Word
  e : Word
  f : Word
  g : Word
  h : Word
deriving DecidableEq

namespace State

def add (x y : State) : State :=
  ⟨x.a + y.a, x.b + y.b, x.c + y.c, x.d + y.d, x.e + y.e, x.f + y.f, x.g + y.g, x.h + y.h⟩

def bits (x : State) : List Bool :=
  [x.a, x.b, x.c, x.d, x.e, x.f, x.g, x.h].flatMap (fun w ↦ toBits 32 w.toNat)

end State

def initial : State :=
  let root (i : ℕ) := rootFraction 2 (primes.getD i 0)
  ⟨root 0, root 1, root 2, root 3, root 4, root 5, root 6, root 7⟩

theorem exists_zeros (length : ℕ) : ∃ k, (length + 1 + k) % 512 = 448 :=
  ⟨959 - length % 512, by omega⟩

def zeros (length : ℕ) : ℕ := Nat.find (exists_zeros length)

def pad (message : List Bool) : List Bool :=
  message ++ true :: List.replicate (zeros message.length) false ++ toBits 64 message.length

def blockWord (padded : List Bool) (i t : ℕ) : Word :=
  .ofNat 32 (ofBits ((padded.drop (512 * i + 32 * t)).take 32))

def schedule (m : ℕ → Word) (t : ℕ) : Word :=
  if t < 16 then m t
  else smallSigma₁ (schedule m (t - 2)) + schedule m (t - 7) + smallSigma₀ (schedule m (t - 15)) +
    schedule m (t - 16)

def round (k w : Word) (x : State) : State :=
  let t₁ := x.h + bigSigma₁ x.e + ch x.e x.f x.g + k + w
  let t₂ := bigSigma₀ x.a + maj x.a x.b x.c
  ⟨t₁ + t₂, x.a, x.b, x.c, x.d + t₁, x.e, x.f, x.g⟩

def compress (m : ℕ → Word) (x : State) : State :=
  ((List.range 64).foldl (fun y t ↦ round (constant t) (schedule m t) y) x).add x

def sha256 (message : List Bool) : List Bool :=
  let padded := pad message
  ((List.range (padded.length / 512)).foldl (fun x i ↦ compress (blockWord padded i) x) initial).bits

theorem prime_iff_of_lt {n : ℕ} (hn : n < 312) :
    Nat.Prime n ↔ 2 ≤ n ∧ ∀ m < 18, 2 ≤ m → m < n → ¬m ∣ n := by
  constructor
  · intro hprime
    refine ⟨hprime.two_le, fun m _ hm hlt hdvd ↦ ?_⟩
    rcases (Nat.dvd_prime hprime).mp hdvd with rfl | rfl <;> omega
  · rintro ⟨htwo, hnone⟩
    refine Nat.prime_def_le_sqrt.mpr ⟨htwo, fun m hm hsqrt hdvd ↦ ?_⟩
    have hmul : m * m ≤ n := Nat.le_sqrt.mp hsqrt
    have hlt : m < 18 := by
      by_contra hlarge
      have := Nat.mul_le_mul (Nat.le_of_not_lt hlarge) (Nat.le_of_not_lt hlarge)
      omega
    have hless : m < n := by
      have := Nat.mul_le_mul_right m hm
      omega
    exact hnone m hlt hm hless hdvd

theorem primes_eq : primes =
    [2, 3, 5, 7, 11, 13, 17, 19, 23, 29, 31, 37, 41, 43, 47, 53, 59, 61, 67, 71, 73, 79, 83, 89, 97,
      101, 103, 107, 109, 113, 127, 131, 137, 139, 149, 151, 157, 163, 167, 173, 179, 181, 191, 193,
      197, 199, 211, 223, 227, 229, 233, 239, 241, 251, 257, 263, 269, 271, 277, 281, 283, 293, 307,
      311] := by
  have hsieve : ∀ n ∈ List.range 312, decide (Nat.Prime n) =
      decide (2 ≤ n ∧ ∀ m : ℕ, m < 18 → 2 ≤ m → m < n → ¬m ∣ n) :=
    fun n hn ↦ decide_eq_decide.mpr (prime_iff_of_lt (List.mem_range.mp hn))
  rw [primes, List.filter_congr hsieve]
  decide +kernel

/-- Powers tell a root, so that none has to be taken. -/
theorem rootFraction_eq {n a q : ℕ} {k : Word}
    (hle : (q * 2 ^ 32 + k.toNat) ^ n ≤ a * 2 ^ (32 * n))
    (hlt : a * 2 ^ (32 * n) < (q * 2 ^ 32 + k.toNat + 1) ^ n) : rootFraction n a = k := by
  apply BitVec.eq_of_toNat_eq
  rw [rootFraction, Nat.nthRoot_eq_of_le_of_lt hle hlt, BitVec.toNat_ofNat,
    Nat.mul_add_mod_self_right]
  exact Nat.mod_eq_of_lt k.isLt

theorem zeros_eq {length k : ℕ} (h : (length + 1 + k) % 512 = 448) (hk : k < 512) :
    zeros length = k := by
  have hfound : (length + 1 + zeros length) % 512 = 448 := Nat.find_spec (exists_zeros length)
  have hle : zeros length ≤ k := Nat.find_min' (exists_zeros length) h
  omega

end Sha256

section Hmac

/-! HMAC as RFC 2104 has it, over any hash function with blocks of `size` bytes. -/

variable (hash : List UInt8 → List UInt8) (size : ℕ)

/-- The key, hashed when it is longer than a block, with zeros appended up to a block. -/
def hmacKey (key : List UInt8) : List UInt8 :=
  let key := if size < key.length then hash key else key
  key ++ List.replicate (size - key.length) 0

def hmac (key text : List UInt8) : List UInt8 :=
  let key := hmacKey hash size key
  hash (key.map (· ^^^ 0x5c) ++ hash (key.map (· ^^^ 0x36) ++ text))

end Hmac

end Aldivine.Foundation.Digests
