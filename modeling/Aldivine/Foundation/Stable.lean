import Mathlib.Data.List.Sort
import Mathlib.Order.Basic

namespace Aldivine.Foundation.Stable

variable {α κ : Type} [LinearOrder κ]

/-- `sort_by_key`: elements with the same key stay in their order. -/
def sortBy (key : α → κ) (l : List α) : List α := l.insertionSort (fun a b ↦ key a ≤ key b)

def InOrder (key : α → κ) (l : List α) : Prop := l.Pairwise (fun a b ↦ key a ≤ key b)

def ofKey (key : α → κ) (k : κ) (l : List α) : List α := l.filter (fun a ↦ decide (key a = k))

variable {key : α → κ} {l l' : List α} {a : α} {k : κ}

theorem mem_ofKey : a ∈ ofKey key k l ↔ a ∈ l ∧ key a = k := by simp [ofKey]

theorem ofKey_cons (a : α) (l : List α) :
    ofKey key k (a :: l) = if key a = k then a :: ofKey key k l else ofKey key k l := by
  simp only [ofKey, List.filter_cons, decide_eq_true_eq]

theorem ofKey_append (l l' : List α) : ofKey key k (l ++ l') = ofKey key k l ++ ofKey key k l' :=
  List.filter_append _ _

theorem ofKey_ofKey (key : α → κ) (k k' : κ) (l : List α) :
    ofKey key k (ofKey key k' l) = if k' = k then ofKey key k l else [] := by
  split
  · rename_i h
    rw [h, ofKey, List.filter_eq_self]
    exact fun a ha ↦ decide_eq_true (mem_ofKey.mp ha).2
  · rename_i h
    rw [ofKey, List.filter_eq_nil_iff]
    exact fun a ha hk ↦ h ((mem_ofKey.mp ha).2.symm.trans (of_decide_eq_true hk))

theorem inOrder_sortBy (key : α → κ) (l : List α) : InOrder key (sortBy key l) := by
  have : Std.Total (fun a b : α ↦ key a ≤ key b) := ⟨fun a b ↦ le_total _ _⟩
  have : IsTrans α (fun a b ↦ key a ≤ key b) := ⟨fun _ _ _ ↦ le_trans⟩
  exact List.pairwise_insertionSort _ l

theorem sortBy_perm (key : α → κ) (l : List α) : (sortBy key l).Perm l :=
  List.perm_insertionSort _ l

theorem ofKey_sortBy (key : α → κ) (l : List α) (k : κ) :
    ofKey key k (sortBy key l) = ofKey key k l := by
  have : Std.Total (fun a b : α ↦ key a ≤ key b) := ⟨fun a b ↦ le_total _ _⟩
  have : IsTrans α (fun a b ↦ key a ≤ key b) := ⟨fun _ _ _ ↦ le_trans⟩
  have hsame : (ofKey key k l).Pairwise (fun a b ↦ key a ≤ key b) := by
    refine List.pairwise_of_forall_mem_list (fun a ha b hb ↦ ?_)
    rw [(mem_ofKey.mp ha).2, (mem_ofKey.mp hb).2]
  have hsub : (ofKey key k (ofKey key k l)).Sublist (ofKey key k (sortBy key l)) :=
    (List.sublist_insertionSort hsame List.filter_sublist).filter _
  rw [ofKey_ofKey, if_pos rfl] at hsub
  exact (hsub.eq_of_length ((sortBy_perm key l).filter _).length_eq.symm).symm

theorem mem_iff_of_ofKey (h : ∀ k, ofKey key k l = ofKey key k l') (a : α) : a ∈ l ↔ a ∈ l' := by
  have hiff : a ∈ ofKey key (key a) l ↔ a ∈ ofKey key (key a) l' := by rw [h]
  simpa [mem_ofKey] using hiff

theorem InOrder.ext (h : InOrder key l) (h' : InOrder key l')
    (hkeys : ∀ k, ofKey key k l = ofKey key k l') : l = l' := by
  have hmem := mem_iff_of_ofKey hkeys
  induction l generalizing l' with
  | nil => exact (List.eq_nil_iff_forall_not_mem.mpr
      (fun b hb ↦ List.not_mem_nil ((hmem b).mpr hb))).symm
  | cons a l ih =>
    cases l' with
    | nil => exact absurd ((hmem a).mp List.mem_cons_self) List.not_mem_nil
    | cons b l' =>
      obtain ⟨hfirst, hrest⟩ := List.pairwise_cons.mp h
      obtain ⟨hfirst', hrest'⟩ := List.pairwise_cons.mp h'
      -- both heads have the least key
      have hle : key a ≤ key b := by
        rcases List.mem_cons.mp ((hmem b).mpr List.mem_cons_self) with rfl | hb
        · exact le_rfl
        · exact hfirst b hb
      have hge : key b ≤ key a := by
        rcases List.mem_cons.mp ((hmem a).mp List.mem_cons_self) with rfl | ha
        · exact le_rfl
        · exact hfirst' a ha
      have hhead := hkeys (key a)
      rw [ofKey_cons, ofKey_cons, if_pos rfl, if_pos (le_antisymm hge hle)] at hhead
      obtain rfl := (List.cons.inj hhead).1
      have htails (k : κ) : ofKey key k l = ofKey key k l' := by
        have hk := hkeys k
        rw [ofKey_cons, ofKey_cons] at hk
        split at hk
        · exact (List.cons.inj hk).2
        · exact hk
      rw [ih hrest hrest' htails (mem_iff_of_ofKey htails)]

/-- A sort is known by its order and by what it keeps under each key. -/
theorem eq_sortBy (h : InOrder key l') (hkeys : ∀ k, ofKey key k l' = ofKey key k l) :
    l' = sortBy key l :=
  h.ext (inOrder_sortBy key l) (fun k ↦ (hkeys k).trans (ofKey_sortBy key l k).symm)

theorem ofKey_groups (key : α → κ) (k : κ) {keys : List κ} (hkeys : keys.Nodup) (l : List α) :
    ofKey key k (keys.flatMap (fun k' ↦ ofKey key k' l)) =
      if k ∈ keys then ofKey key k l else [] := by
  induction keys with
  | nil => rfl
  | cons k' keys ih =>
    obtain ⟨hnot, hkeys⟩ := List.nodup_cons.mp hkeys
    rw [List.flatMap_cons, ofKey_append, ofKey_ofKey, ih hkeys]
    by_cases hk : k' = k
    · subst hk
      rw [if_pos rfl, if_neg hnot, if_pos List.mem_cons_self, List.append_nil]
    · rw [if_neg hk, List.nil_append]
      simp only [List.mem_cons, Ne.symm hk, false_or]

theorem sortBy_eq_groups (key : α → κ) {keys : List κ} (hkeys : keys.Pairwise (· < ·))
    (hall : ∀ a ∈ l, key a ∈ keys) : sortBy key l = keys.flatMap (fun k ↦ ofKey key k l) := by
  refine (eq_sortBy ?_ (fun k ↦ ?_)).symm
  · refine List.pairwise_flatMap.mpr ⟨fun k _ ↦ ?_, hkeys.imp (fun hlt a ha b hb ↦ ?_)⟩
    · refine List.pairwise_of_forall_mem_list (fun a ha b hb ↦ ?_)
      rw [(mem_ofKey.mp ha).2, (mem_ofKey.mp hb).2]
    · rw [(mem_ofKey.mp ha).2, (mem_ofKey.mp hb).2]
      exact hlt.le
  · rw [ofKey_groups key k (hkeys.imp ne_of_lt)]
    split
    · rfl
    · rename_i hnot
      refine (List.eq_nil_iff_forall_not_mem.mpr (fun a ha ↦ hnot ?_)).symm
      obtain ⟨hmem, hkey⟩ := mem_ofKey.mp ha
      exact hkey ▸ hall a hmem

/-- Sorting after every addition is sorting once. -/
theorem sortBy_append_sortBy (key : α → κ) (l l' : List α) :
    sortBy key (sortBy key l ++ l') = sortBy key (l ++ l') := by
  refine eq_sortBy (inOrder_sortBy key _) (fun k ↦ ?_)
  rw [ofKey_sortBy, ofKey_append, ofKey_sortBy, ofKey_append]

theorem map_sortBy {β : Type} (key : α → κ) (key' : β → κ) {f : α → β}
    (h : ∀ a, key' (f a) = key a) (l : List α) : (sortBy key l).map f = sortBy key' (l.map f) :=
  List.map_insertionSort _ _ f l (fun a _ b _ ↦ by rw [h, h])

theorem filter_sortBy (p : α → Bool) (key : α → κ) (l : List α) :
    (sortBy key l).filter p = sortBy key (l.filter p) := by
  refine eq_sortBy ((inOrder_sortBy key l).sublist List.filter_sublist) (fun k ↦ ?_)
  have hswap (l : List α) : ofKey key k (l.filter p) = (ofKey key k l).filter p := by
    rw [ofKey, ofKey, List.filter_filter, List.filter_filter]
    exact List.filter_congr (fun a _ ↦ Bool.and_comm _ _)
  rw [hswap, hswap, ofKey_sortBy]

end Aldivine.Foundation.Stable
