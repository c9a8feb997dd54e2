import Mathlib.Algebra.Order.BigOperators.Group.List
import Mathlib.Algebra.Order.Group.Nat
import Mathlib.Algebra.Order.Ring.Nat
import Mathlib.Data.List.Dedup
import Mathlib.Data.List.Rotate
import Mathlib.Data.List.TakeWhile

namespace Aldivine.Foundation.Rotation

variable {α : Type} {order : List α} {pos : ℕ} {x : α}

theorem rotate_eq_cons (hpos : pos < order.length) :
    ∃ rest, order.rotate pos = order[pos] :: rest := by
  have hhead := List.head?_rotate hpos
  rw [List.getElem?_eq_getElem hpos] at hhead
  exact List.head?_eq_some_iff.mp hhead

variable [DecidableEq α]

def ahead (order : List α) (pos : ℕ) (x : α) : List α := (order.rotate pos).takeWhile (· ≠ x)

theorem ne_of_mem_ahead {y : α} (hy : y ∈ ahead order pos x) : y ≠ x := by
  simpa using List.mem_takeWhile_imp hy

theorem nodup_ahead (horder : order.Nodup) : (ahead order pos x).Nodup :=
  (List.nodup_rotate.mpr horder).sublist (List.takeWhile_sublist _)

theorem ahead_next (hpos : pos < order.length) (hx : x ∈ order) (hne : order[pos] ≠ x) :
    ahead order pos x = order[pos] :: ahead order ((pos + 1) % order.length) x := by
  obtain ⟨rest, hrest⟩ := rotate_eq_cons hpos
  have hnext : order.rotate ((pos + 1) % order.length) = rest ++ [order[pos]] := by
    rw [List.rotate_mod, ← List.rotate_rotate, hrest, List.rotate_cons_succ, List.rotate_zero]
  have hmem : x ∈ rest := by
    have hall : x ∈ order.rotate pos := List.mem_rotate.mpr hx
    rw [hrest] at hall
    exact (List.mem_cons.mp hall).resolve_left hne.symm
  -- the walk ends inside `rest`, so what was appended does not matter
  have hends : (rest.takeWhile (· ≠ x)).length ≠ rest.length := by
    intro hlen
    have hall := List.takeWhile_eq_self_iff.mp
      ((List.takeWhile_prefix (fun y ↦ decide (y ≠ x))).eq_of_length hlen) x hmem
    exact of_decide_eq_true hall rfl
  rw [ahead, ahead, hnext, hrest, List.takeWhile_cons_of_pos (by simpa using hne),
    List.takeWhile_append, if_neg hends]

theorem sum_ahead_le (weight : α → ℕ) (pos : ℕ) (hx : x ∈ order) :
    ((ahead order pos x).map weight).sum + weight x ≤ (order.map weight).sum := by
  have hsplit : ahead order pos x ++ (order.rotate pos).dropWhile (· ≠ x) = order.rotate pos :=
    List.takeWhile_append_dropWhile
  have hmem : x ∈ (order.rotate pos).dropWhile (· ≠ x) := by
    have hall : x ∈ order.rotate pos := List.mem_rotate.mpr hx
    rw [← hsplit, List.mem_append] at hall
    exact hall.resolve_left (fun hx ↦ ne_of_mem_ahead hx rfl)
  have hle := List.single_le_sum (fun n _ ↦ Nat.zero_le n) (weight x)
    (List.mem_map_of_mem (f := weight) hmem)
  rw [← ((order.rotate_perm pos).map weight).sum_eq, ← hsplit, List.map_append, List.sum_append]
  exact Nat.add_le_add_left hle _

end Aldivine.Foundation.Rotation

namespace Aldivine.Foundation.Recency

variable {α : Type} [DecidableEq α] {l : List α} {x : α} {p q : α → Bool}

/-- `x` was used: it moves to the end, or comes there. -/
def touch (l : List α) (x : α) : List α := l.filter (fun y ↦ decide (y ≠ x)) ++ [x]

theorem dedup_concat (l : List α) (x : α) : (l ++ [x]).dedup = touch l.dedup x := by
  induction l with
  | nil => rfl
  | cons y l ih =>
    rw [List.cons_append]
    by_cases hy : y ∈ l
    · rw [List.dedup_cons_of_mem (List.mem_append_left _ hy), List.dedup_cons_of_mem hy, ih]
    · by_cases hyx : y = x
      · subst hyx
        rw [List.dedup_cons_of_mem (by simp), List.dedup_cons_of_notMem hy, ih, touch, touch,
          List.filter_cons_of_neg (by simp)]
      · have hnot : y ∉ l ++ [x] := by simp [hy, hyx]
        rw [List.dedup_cons_of_notMem hnot, List.dedup_cons_of_notMem hy, ih, touch, touch,
          List.filter_cons_of_pos (by simpa using hyx), List.cons_append]

theorem touch_filter (hx : q x = true) (h : ∀ y, y ≠ x → q y = p y) :
    touch (l.filter p) x = (touch l x).filter q := by
  rw [touch, touch, List.filter_append, List.filter_filter, List.filter_filter,
    List.filter_singleton, hx]
  congr 1
  refine List.filter_congr (fun y _ ↦ ?_)
  by_cases hy : y = x
  · simp [hy]
  · rw [h y hy, Bool.and_comm]

end Aldivine.Foundation.Recency
