import Mathlib.Algebra.BigOperators.Group.Finset.Basic
import Mathlib.Algebra.Order.Ring.Nat
import Mathlib.Order.Nat

namespace Aldivine.Foundation.Layout

variable {p : ℕ → Prop} [DecidablePred p]

/-- Where the part `t` starts, when the parts that are present lie one behind the other. -/
def startOf (p : ℕ → Prop) [DecidablePred p] (size : ℕ → ℕ) (t : ℕ) : ℕ :=
  ∑ u ∈ Finset.range t, if p u then size u else 0

theorem startOf_succ (size : ℕ → ℕ) (t : ℕ) :
    startOf p size (t + 1) = startOf p size t + if p t then size t else 0 :=
  Finset.sum_range_succ _ _

theorem startOf_next (size : ℕ → ℕ) {u t : ℕ} (hut : u < t) (hu : p u)
    (hnone : ∀ v, u < v → v < t → ¬p v) : startOf p size t = startOf p size u + size u := by
  induction t with
  | zero => omega
  | succ t ih =>
    rw [startOf_succ]
    rcases Nat.lt_succ_iff_lt_or_eq.mp hut with hlt | rfl
    · rw [if_neg (hnone t hlt (Nat.lt_succ_self t)), Nat.add_zero]
      exact ih hlt (fun v huv hvt ↦ hnone v huv (Nat.lt_succ_of_lt hvt))
    · rw [if_pos hu]

/-- Two layouts start every part in the same place exactly when they agree on the size of every part
that has another behind it. -/
theorem same_starts_iff (a b : ℕ → ℕ) (n : ℕ) :
    (∀ t < n, p t → startOf p a t = startOf p b t) ↔
      ∀ u t, u < t → t < n → p u → p t → a u = b u := by
  constructor
  · intro h u t hut htn hu ht
    have hexists : ∃ v, u < v ∧ p v := ⟨t, hut, ht⟩
    obtain ⟨hlt, hp⟩ := Nat.find_spec hexists
    have hle : Nat.find hexists ≤ t := Nat.find_min' hexists ⟨hut, ht⟩
    have hnone (v : ℕ) (huv : u < v) (hv : v < Nat.find hexists) : ¬p v :=
      fun hpv ↦ Nat.find_min hexists hv ⟨huv, hpv⟩
    have hnext := h _ (hle.trans_lt htn) hp
    rw [startOf_next a hlt hu hnone, startOf_next b hlt hu hnone,
      h u (hut.trans htn) hu] at hnext
    exact Nat.add_left_cancel hnext
  · intro h t htn ht
    refine Finset.sum_congr rfl (fun u hu ↦ ?_)
    split
    · rename_i hpu
      exact h u t (Finset.mem_range.mp hu) htn hpu ht
    · rfl

end Aldivine.Foundation.Layout
