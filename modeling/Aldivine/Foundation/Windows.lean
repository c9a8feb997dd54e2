import Mathlib.Algebra.Order.Ring.Nat
import Mathlib.Data.List.Basic

namespace Aldivine.Foundation.Windows

/-- Hits are counted from `start` on, in a window of length `width`, and no window has more than
`most` of them. The windows before are over. -/
structure Windowed (width most : ℕ) (hits : List ℕ) (start count : ℕ) : Prop where
  recent : ∀ t ∈ hits, t < start + width
  inside : hits.countP (fun t ↦ decide (start ≤ t)) = count
  count_le : count ≤ most
  before : ∀ a, start < a + width → hits.countP (fun t ↦ decide (a ≤ t ∧ t < start)) ≤ most
  total : ∀ a, hits.countP (fun t ↦ decide (a ≤ t ∧ t < a + width)) ≤ 2 * most

variable {width most start count now a : ℕ} {hits : List ℕ}

theorem countP_concat (p : ℕ → Bool) (hits : List ℕ) (now : ℕ) :
    (hits ++ [now]).countP p = hits.countP p + if p now then 1 else 0 := by
  rw [List.countP_append, List.countP_singleton]

theorem windowed_first (hwidth : 0 < width) (hmost : 1 ≤ most) :
    Windowed width most [now] now 1 where
  recent t ht := by
    rw [List.mem_singleton.mp ht]
    omega
  inside := by simp
  count_le := hmost
  before a _ := by simp
  total a := (List.countP_le_length).trans (by simp; omega)

theorem Windowed.late_le (h : Windowed width most hits start count) (ha : start ≤ a) (b : ℕ) :
    hits.countP (fun t ↦ decide (a ≤ t ∧ t < b)) ≤ count := by
  rw [← h.inside]
  refine List.countP_mono_left (fun t _ ht ↦ ?_)
  simp only [decide_eq_true_eq] at ht ⊢
  omega

theorem countP_split_le (hits : List ℕ) (a b start : ℕ) :
    hits.countP (fun t ↦ decide (a ≤ t ∧ t < b)) ≤
      hits.countP (fun t ↦ decide (a ≤ t ∧ t < start)) +
        hits.countP (fun t ↦ decide (start ≤ t)) := by
  induction hits with
  | nil => simp
  | cons t hits ih =>
    simp only [List.countP_cons, decide_eq_true_eq]
    split <;> split <;> split <;> omega

/-- An interval that reaches into the window has the end of the window before, and part of this
one. -/
theorem Windowed.overlap_le (h : Windowed width most hits start count) (ha : start < a + width)
    (b : ℕ) : hits.countP (fun t ↦ decide (a ≤ t ∧ t < b)) ≤ most + count := by
  have hsplit := countP_split_le hits a b start
  have hbefore := h.before a ha
  rw [h.inside] at hsplit
  omega

theorem Windowed.again (h : Windowed width most hits start count) (hstart : start ≤ now)
    (hnow : now < start + width) (hcount : count < most) :
    Windowed width most (hits ++ [now]) start (count + 1) where
  recent t ht := by
    rcases List.mem_append.mp ht with ht | ht
    · exact h.recent t ht
    · rwa [List.mem_singleton.mp ht]
  inside := by rw [countP_concat, h.inside, if_pos (decide_eq_true hstart)]
  count_le := hcount
  before a ha := by
    rw [countP_concat, if_neg (by simp; omega)]
    exact h.before a ha
  total a := by
    rw [countP_concat]
    split
    · rename_i hin
      simp only [decide_eq_true_eq] at hin
      have hover := h.overlap_le (a := a) (by omega) (a + width)
      omega
    · exact h.total a

theorem Windowed.next (h : Windowed width most hits start count) (hwidth : 0 < width)
    (hmost : 1 ≤ most) (hnow : start + width ≤ now) :
    Windowed width most (hits ++ [now]) now 1 where
  recent t ht := by
    rcases List.mem_append.mp ht with ht | ht
    · have hlt := h.recent t ht
      omega
    · rw [List.mem_singleton.mp ht]
      omega
  inside := by
    have hnone : hits.countP (fun t ↦ decide (now ≤ t)) = 0 := by
      rw [List.countP_eq_zero]
      intro t ht
      have hlt := h.recent t ht
      simp only [decide_eq_true_eq]
      omega
    rw [countP_concat, hnone, if_pos (decide_eq_true le_rfl)]
  count_le := hmost
  before a ha := by
    rw [countP_concat, if_neg (by simp)]
    exact (h.late_le (by omega) now).trans h.count_le
  total a := by
    rw [countP_concat]
    split
    · rename_i hin
      simp only [decide_eq_true_eq] at hin
      have hlate := (h.late_le (a := a) (by omega) (a + width)).trans h.count_le
      omega
    · exact h.total a

end Aldivine.Foundation.Windows
