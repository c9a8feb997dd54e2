import Mathlib.Algebra.Order.BigOperators.Group.List
import Mathlib.Algebra.Order.Ring.Nat
import Mathlib.Data.List.Basic

namespace Aldivine.Foundation.Machine

/-- What machine arithmetic does when a result does not fit: wrap around, as release builds do, or
panic, as debug builds do. -/
inductive Overflow
  | wraps
  | panics
deriving DecidableEq

/-- The result of a call that can fail with an error or panic. -/
inductive Outcome (ε α : Type)
  | ok (a : α)
  | err (e : ε)
  | panic
deriving DecidableEq

variable {w : ℕ}

/-- The machine word for `n`, or `none` for a panic. -/
def Overflow.word (mode : Overflow) (w n : ℕ) : Option (BitVec w) :=
  if n < 2 ^ w ∨ mode = .wraps then some (BitVec.ofNat w n) else none

def Overflow.add (mode : Overflow) (a b : BitVec w) : Option (BitVec w) :=
  mode.word w (a.toNat + b.toNat)

def Overflow.mul (mode : Overflow) (a b : BitVec w) : Option (BitVec w) :=
  mode.word w (a.toNat * b.toNat)

/-- The signed machine word for `i`, or `none` for a panic. -/
def Overflow.int (mode : Overflow) (w : ℕ) (i : ℤ) : Option (BitVec w) :=
  if (BitVec.ofInt w i).toInt = i ∨ mode = .wraps then some (BitVec.ofInt w i) else none

variable {mode : Overflow}

theorem word_toNat {n : ℕ} {x : BitVec w} (h : mode.word w n = some x) :
    x.toNat = n % 2 ^ w ∧ (mode = .panics → n < 2 ^ w) := by
  unfold Overflow.word at h
  split at h
  · cases h
    refine ⟨BitVec.toNat_ofNat n w, fun hmode ↦ ?_⟩
    rename_i hfits
    exact hfits.resolve_right (by rw [hmode]; exact Overflow.noConfusion)
  · cases h

theorem word_of_lt {n : ℕ} (h : n < 2 ^ w) : mode.word w n = some (BitVec.ofNat w n) :=
  if_pos (.inl h)

theorem word_le {n : ℕ} {x : BitVec w} (h : mode.word w n = some x) : x.toNat ≤ n := by
  rw [(word_toNat h).1]
  exact Nat.mod_le _ _

/-- Nothing wraps: the word is the number. -/
theorem word_exact {n : ℕ} {x : BitVec w} (h : mode.word w n = some x)
    (hfits : mode = .wraps → n < 2 ^ w) : x.toNat = n := by
  obtain ⟨hx, hp⟩ := word_toNat h
  rw [hx]
  cases mode with
  | wraps => exact Nat.mod_eq_of_lt (hfits rfl)
  | panics => exact Nat.mod_eq_of_lt (hp rfl)

theorem int_of_fits (mode : Overflow) {i : ℤ} (h : (BitVec.ofInt w i).toInt = i) :
    ∃ x, mode.int w i = some x ∧ x.toInt = i :=
  ⟨_, if_pos (.inl h), h⟩

theorem int_panics {i : ℤ} {x : BitVec w} (h : Overflow.panics.int w i = some x) :
    x.toInt = i := by
  unfold Overflow.int at h
  split at h
  · rename_i hfits
    cases h
    exact hfits.resolve_right (by intro h; cases h)
  · cases h

/-- Counting up by one: there is room, or the counter comes round to zero, or it panics. -/
theorem add_one_cases [NeZero w] (mode : Overflow) (a : BitVec w) :
    (∃ x, mode.add a 1 = some x ∧ a.toNat + 1 < 2 ^ w ∧ x.toNat = a.toNat + 1) ∨
      (∃ x, mode.add a 1 = some x ∧ a.toNat + 1 = 2 ^ w ∧ mode = .wraps ∧ x.toNat = 0) ∨
      (mode.add a 1 = none ∧ a.toNat + 1 = 2 ^ w ∧ mode = .panics) := by
  have hone : (1 : BitVec w).toNat = 1 := BitVec.toNat_one (Nat.pos_of_neZero w)
  have hlt := a.isLt
  rw [Overflow.add, hone]
  by_cases hroom : a.toNat + 1 < 2 ^ w
  · refine .inl ⟨_, word_of_lt hroom, hroom, ?_⟩
    rw [BitVec.toNat_ofNat, Nat.mod_eq_of_lt hroom]
  · have hfull : a.toNat + 1 = 2 ^ w := by omega
    rw [hfull]
    cases mode with
    | wraps =>
      refine .inr (.inl ⟨_, if_pos (.inr rfl), rfl, rfl, ?_⟩)
      rw [BitVec.toNat_ofNat, Nat.mod_self]
    | panics => exact .inr (.inr ⟨if_neg (by simp), rfl, rfl⟩)

theorem add_one_of_room [NeZero w] (mode : Overflow) {a : BitVec w} (hroom : a.toNat + 1 < 2 ^ w) :
    ∃ x, mode.add a 1 = some x ∧ x.toNat = a.toNat + 1 := by
  rcases add_one_cases mode a with ⟨x, hx, -, hsucc⟩ | ⟨x, -, hfull, -⟩ | ⟨-, hfull, -⟩
  · exact ⟨x, hx, hsucc⟩
  · exact absurd hfull hroom.ne
  · exact absurd hfull hroom.ne

theorem add_one_eq_none [NeZero w] {a : BitVec w} (h : mode.add a 1 = none) :
    a.toNat + 1 = 2 ^ w ∧ mode = .panics := by
  rcases add_one_cases mode a with ⟨x, hx, -⟩ | ⟨x, hx, -⟩ | hnone
  · cases h.symm.trans hx
  · cases h.symm.trans hx
  · exact hnone.2

theorem word_some {n : ℕ} (h : mode = .wraps ∨ n < 2 ^ w) : ∃ x, mode.word w n = some x :=
  ⟨_, if_pos h.symm⟩

def Overflow.sumOf {α : Type} (mode : Overflow) (f : α → Option (BitVec w)) (l : List α) :
    Option (BitVec w) :=
  l.foldlM (fun acc a ↦ (f a).bind (mode.add acc)) 0

theorem sumOf_exact {α : Type} {f : α → Option (BitVec w)} {g : α → ℕ} {l : List α} {x : BitVec w}
    (hf : ∀ a ∈ l, ∀ y, f a = some y → (mode = .wraps → g a < 2 ^ w) → y.toNat = g a)
    (h : mode.sumOf f l = some x) (hfits : mode = .wraps → (l.map g).sum < 2 ^ w) :
    x.toNat = (l.map g).sum := by
  suffices hacc : ∀ (l : List α) (acc x : BitVec w),
      (∀ a ∈ l, ∀ y, f a = some y → (mode = .wraps → g a < 2 ^ w) → y.toNat = g a) →
      l.foldlM (fun acc a ↦ (f a).bind (mode.add acc)) acc = some x →
      (mode = .wraps → acc.toNat + (l.map g).sum < 2 ^ w) →
      x.toNat = acc.toNat + (l.map g).sum by
    have hx := hacc l 0 x hf h (by simpa using hfits)
    simpa using hx
  intro l
  induction l with
  | nil =>
    intro acc x _ h _
    cases h
    simp
  | cons a l ih =>
    intro acc x hf h hfits
    obtain ⟨hfa, hfl⟩ := List.forall_mem_cons.mp hf
    simp only [List.map_cons, List.sum_cons] at hfits ⊢
    rw [List.foldlM_cons] at h
    obtain ⟨acc', hstep, hrest⟩ := Option.bind_eq_some_iff.mp h
    obtain ⟨y, hy, hadd⟩ := Option.bind_eq_some_iff.mp hstep
    have hya : y.toNat = g a := hfa y hy (fun hm ↦ by have := hfits hm; omega)
    have hacc' : acc'.toNat = acc.toNat + y.toNat :=
      word_exact hadd (fun hm ↦ by have := hfits hm; omega)
    have hx := ih acc' x hfl hrest (fun hm ↦ by have := hfits hm; omega)
    omega

theorem word_add_word {n k : ℕ} {x : BitVec w} (h : mode.word w n = some x) :
    mode.word w (x.toNat + k) = mode.word w (n + k) := by
  obtain ⟨hx, hpanics⟩ := word_toNat h
  cases mode with
  | wraps =>
    have hmod : (x.toNat + k) % 2 ^ w = (n + k) % 2 ^ w := by rw [hx, Nat.mod_add_mod]
    simp only [Overflow.word, or_true, if_true, Option.some.injEq]
    apply BitVec.eq_of_toNat_eq
    rw [BitVec.toNat_ofNat, BitVec.toNat_ofNat, hmod]
  | panics => rw [hx, Nat.mod_eq_of_lt (hpanics rfl)]

theorem word_add_none {n k : ℕ} (h : mode.word w n = none) : mode.word w (n + k) = none := by
  unfold Overflow.word at h ⊢
  split at h
  · cases h
  · rename_i hbig
    exact if_neg (fun h ↦ hbig (h.imp_left (Nat.lt_of_le_of_lt (Nat.le_add_right n k))))

/-- Words are added up as numbers, and in any order: only the end result can fail to fit. -/
theorem sumOf_some {α : Type} (g : α → BitVec w) (l : List α) :
    mode.sumOf (fun a ↦ some (g a)) l = mode.word w (l.map (fun a ↦ (g a).toNat)).sum := by
  suffices hacc : ∀ (l : List α) (acc : BitVec w),
      l.foldlM (fun acc a ↦ (some (g a)).bind (mode.add acc)) acc =
        mode.word w (acc.toNat + (l.map (fun a ↦ (g a).toNat)).sum) by
    have h0 := hacc l 0
    simpa [Overflow.sumOf] using h0
  intro l
  induction l with
  | nil =>
    intro acc
    have hword : mode.word w acc.toNat = some (.ofNat w acc.toNat) := word_of_lt acc.isLt
    simpa using hword.symm
  | cons a l ih =>
    intro acc
    rw [List.foldlM_cons, List.map_cons, List.sum_cons, ← Nat.add_assoc]
    cases hadd : mode.add acc (g a) with
    | some x =>
      simp only [Option.bind_some, hadd]
      exact (ih x).trans (word_add_word hadd)
    | none =>
      simp only [Option.bind_some, hadd]
      exact (word_add_none hadd).symm

/-- Adding up lengths fails only when their sum does not fit. -/
theorem sumOf_ofNat {α : Type} {f : α → ℕ} {l : List α}
    (h : mode = .wraps ∨ (l.map f).sum < 2 ^ w) :
    ∃ x, mode.sumOf (fun a ↦ some (BitVec.ofNat w (f a))) l = some x ∧ x.toNat ≤ (l.map f).sum := by
  have hle : (l.map (fun a ↦ (BitVec.ofNat w (f a)).toNat)).sum ≤ (l.map f).sum := by
    refine List.sum_le_sum (fun a _ ↦ ?_)
    rw [BitVec.toNat_ofNat]
    exact Nat.mod_le _ _
  obtain ⟨x, hx⟩ := word_some (h.imp_right hle.trans_lt)
  refine ⟨x, ?_, (word_le hx).trans hle⟩
  rw [sumOf_some, hx]

/-- The amount a word of `w` bits is shifted by: a shift by the width or more takes it modulo the
width, or panics. -/
def Overflow.amount (mode : Overflow) (w n : ℕ) : Option ℕ :=
  if n < w then some n else if mode = .wraps then some (n % w) else none

def Overflow.shiftRight (mode : Overflow) (a : BitVec w) (n : ℕ) : Option (BitVec w) :=
  (mode.amount w n).map (fun k ↦ a >>> k)

def Overflow.shiftLeft (mode : Overflow) (a : BitVec w) (n : ℕ) : Option (BitVec w) :=
  (mode.amount w n).map (fun k ↦ a <<< k)

theorem shiftRight_of_lt {n : ℕ} (a : BitVec w) (h : n < w) :
    mode.shiftRight a n = some (a >>> n) := by
  rw [Overflow.shiftRight, Overflow.amount, if_pos h, Option.map_some]

theorem shiftLeft_of_lt {n : ℕ} (a : BitVec w) (h : n < w) :
    mode.shiftLeft a n = some (a <<< n) := by
  rw [Overflow.shiftLeft, Overflow.amount, if_pos h, Option.map_some]

theorem shiftRight_panics {n : ℕ} (a : BitVec w) (h : w ≤ n) :
    Overflow.panics.shiftRight a n = none := by
  have hmode : Overflow.panics ≠ .wraps := by
    intro h
    cases h
  rw [Overflow.shiftRight, Overflow.amount, if_neg (Nat.not_lt.mpr h), if_neg hmode,
    Option.map_none]

/-- The first `k` bits of two words are equal, counted from the most significant one. -/
def SameLeading (k : ℕ) (a b : BitVec w) : Prop := ∀ i < k, a.getMsbD i = b.getMsbD i

instance (k : ℕ) (a b : BitVec w) : Decidable (SameLeading k a b) :=
  inferInstanceAs (Decidable (∀ i < k, a.getMsbD i = b.getMsbD i))

variable {a b : BitVec w} {k : ℕ}

/-- What is left of two words after a shift are their leading bits. -/
theorem ushiftRight_eq_iff (hk : k ≤ w) :
    a >>> (w - k) = b >>> (w - k) ↔ SameLeading k a b := by
  constructor
  · intro h i hi
    have hbit := congrArg (fun x ↦ x.getMsbD (w - k + i)) h
    simp only [BitVec.getMsbD_ushiftRight] at hbit
    have hin : w - k + i < w := by omega
    have hout : ¬w - k + i < w - k := by omega
    simpa [hin, hout] using hbit
  · intro h
    apply BitVec.eq_of_getMsbD_eq
    intro i hi
    rw [BitVec.getMsbD_ushiftRight, BitVec.getMsbD_ushiftRight]
    by_cases hlow : i < w - k
    · simp [hlow]
    · rw [h (i - (w - k)) (by omega)]

/-- A mask of the first `k` bits picks out the leading bits. -/
theorem and_mask_eq_iff {mask : BitVec w} (hmask : ∀ i < w, mask.getMsbD i = decide (i < k)) :
    a &&& mask = b &&& mask ↔ SameLeading k a b := by
  constructor
  · intro h i hi
    by_cases hin : i < w
    · have hbit := congrArg (fun x ↦ x.getMsbD i) h
      simpa [hmask i hin, hi] using hbit
    · rw [BitVec.getMsbD_of_ge a i (Nat.le_of_not_lt hin),
        BitVec.getMsbD_of_ge b i (Nat.le_of_not_lt hin)]
  · intro h
    apply BitVec.eq_of_getMsbD_eq
    intro i hi
    rw [BitVec.getMsbD_and, BitVec.getMsbD_and, hmask i hi]
    by_cases hlow : i < k
    · rw [h i hlow]
    · simp [hlow]

end Aldivine.Foundation.Machine
