import Mathlib.Algebra.BigOperators.Group.List.Basic
import Mathlib.Algebra.Order.Ring.Nat
import Mathlib.Data.List.AList
import Mathlib.Data.List.Induction
import Std.Data.ExtTreeMap

namespace Aldivine.Foundation.Table

variable {κ ν : Type} [DecidableEq κ] {t : AList (fun _ : κ ↦ ν)} {k : κ}

theorem lookup_insert_ite (k' : κ) (v : ν) :
    (t.insert k v).lookup k' = if k' = k then some v else t.lookup k' := by
  split
  · subst k'
    exact AList.lookup_insert t
  · exact AList.lookup_insert_ne ‹_›

def total (f : ν → ℕ) (t : AList (fun _ : κ ↦ ν)) : ℕ := (t.entries.map (fun e ↦ f e.2)).sum

theorem total_insert_new (f : ν → ℕ) (v : ν) (h : t.lookup k = none) :
    total f (t.insert k v) = total f t + f v := by
  have hk : k ∉ t := AList.lookup_eq_none.mp h
  simp only [total, AList.entries_insert_of_notMem hk, List.map_cons, List.sum_cons]
  exact Nat.add_comm _ _

theorem entries_perm {v : ν} (h : t.lookup k = some v) :
    t.entries.Perm (⟨k, v⟩ :: t.entries.kerase k) := by
  have hmem : ⟨k, v⟩ ∈ t.entries := AList.mem_lookup_iff.mp h
  obtain ⟨v', l₁, l₂, -, he, hk⟩ := List.exists_of_kerase (List.mem_keys_of_mem hmem)
  have hv : t.lookup k = some v' := by
    rw [← Option.mem_def, AList.mem_lookup_iff, he]
    exact List.mem_append_right _ List.mem_cons_self
  obtain rfl := Option.some.inj (h.symm.trans hv)
  rw [hk, he]
  exact List.perm_middle

theorem total_insert_old (f : ν → ℕ) {v : ν} (w : ν) (h : t.lookup k = some v) :
    total f (t.insert k w) + f v = total f t + f w := by
  have hsum : total f t = f v + ((t.entries.kerase k).map (fun e ↦ f e.2)).sum := by
    rw [total, ((entries_perm h).map _).sum_eq, List.map_cons, List.sum_cons]
  have hnew : total f (t.insert k w) = f w + ((t.entries.kerase k).map (fun e ↦ f e.2)).sum := by
    rw [total, AList.entries_insert, List.map_cons, List.sum_cons]
  omega

theorem le_total (f : ν → ℕ) {v : ν} (h : t.lookup k = some v) : f v ≤ total f t := by
  rw [total, ((entries_perm h).map _).sum_eq, List.map_cons, List.sum_cons]
  exact Nat.le_add_right _ _

theorem total_erase (f : ν → ℕ) {v : ν} (h : t.lookup k = some v) :
    total f (t.erase k) + f v = total f t := by
  have hsum : total f t = f v + total f (t.erase k) := by
    rw [total, ((entries_perm h).map _).sum_eq, List.map_cons, List.sum_cons]
    rfl
  omega

theorem filter_key_eq {l : List (κ × ν)} {v : ν} (hdistinct : l.Pairwise (fun a b ↦ a.1 ≠ b.1))
    (h : (k, v) ∈ l) : l.filter (fun e ↦ e.1 == k) = [(k, v)] := by
  induction l with
  | nil => cases h
  | cons e l ih =>
    obtain ⟨hne, hdistinct⟩ := List.pairwise_cons.mp hdistinct
    rcases List.mem_cons.mp h with rfl | h
    · have hrest : l.filter (fun e ↦ e.1 == k) = [] := by
        rw [List.filter_eq_nil_iff]
        intro e he
        simpa using (hne e he).symm
      simp [hrest]
    · have hek : e.1 ≠ k := hne (k, v) h
      simp [hek, ih hdistinct h]

/-- Of values written one after the other, each a function of its key, the written ones stand. -/
theorem lookup_foldl_insert (f : κ → ν) (keys : List κ) (t : AList (fun _ : κ ↦ ν)) :
    (keys.foldl (fun t k ↦ t.insert k (f k)) t).lookup k =
      if k ∈ keys then some (f k) else t.lookup k := by
  induction keys generalizing t with
  | nil => rfl
  | cons a keys ih =>
    rw [List.foldl_cons, ih]
    by_cases hmem : k ∈ keys
    · rw [if_pos hmem, if_pos (List.mem_cons_of_mem a hmem)]
    · by_cases hka : k = a
      · subst hka
        rw [if_neg hmem, if_pos List.mem_cons_self, AList.lookup_insert]
      · rw [if_neg hmem, AList.lookup_insert_ne hka, if_neg]
        exact List.not_mem_cons_of_ne_of_not_mem hka hmem

theorem mem_foldl_insert {α : Type} (key : α → κ) (value : α → ν) (l : List α)
    (t : AList (fun _ : κ ↦ ν)) :
    k ∈ l.foldl (fun t a ↦ t.insert (key a) (value a)) t ↔ k ∈ l.map key ∨ k ∈ t := by
  induction l generalizing t with
  | nil => exact (or_iff_right List.not_mem_nil).symm
  | cons a l ih =>
    rw [List.foldl_cons, ih, AList.mem_insert, List.map_cons, List.mem_cons]
    tauto

theorem lookup_foldl_erase (keys : List κ) (t : AList (fun _ : κ ↦ ν)) :
    (keys.foldl (fun t k ↦ t.erase k) t).lookup k = if k ∈ keys then none else t.lookup k := by
  induction keys generalizing t with
  | nil => rfl
  | cons a keys ih =>
    rw [List.foldl_cons, ih]
    by_cases hka : k = a
    · subst hka
      rw [if_pos List.mem_cons_self, AList.lookup_erase, ite_self]
    · rw [AList.lookup_erase_ne hka]
      simp only [List.mem_cons, hka, false_or]

/-- The keys whose values satisfy `p`, collected first and then taken out one by one. -/
theorem lookup_erase_collected (p : ν → Bool) (t : AList (fun _ : κ ↦ ν)) :
    (((t.entries.filter (fun e ↦ p e.2)).map Sigma.fst).foldl (fun t k ↦ t.erase k) t).lookup k =
      (t.lookup k).filter (fun v ↦ !p v) := by
  have hmem : k ∈ (t.entries.filter (fun e ↦ p e.2)).map Sigma.fst ↔
      ∃ v, t.lookup k = some v ∧ p v = true := by
    simp only [List.mem_map, List.mem_filter]
    constructor
    · intro h
      obtain ⟨⟨k', v⟩, ⟨hentry, hp⟩, rfl⟩ := h
      exact ⟨v, AList.mem_lookup_iff.mpr hentry, hp⟩
    · intro h
      obtain ⟨v, hv, hp⟩ := h
      exact ⟨⟨k, v⟩, ⟨AList.mem_lookup_iff.mp hv, hp⟩, rfl⟩
  rw [lookup_foldl_erase]
  simp only [hmem]
  cases hk : t.lookup k with
  | none => simp
  | some v =>
    cases hp : p v with
    | true => simp [Option.filter, hp]
    | false => simp [Option.filter, hp]

def retain (p : κ → ν → Bool) (t : AList (fun _ : κ ↦ ν)) : AList (fun _ : κ ↦ ν) :=
  ⟨t.entries.filter (fun e ↦ p e.1 e.2), t.nodupKeys.sublist List.filter_sublist⟩

theorem lookup_retain (p : κ → ν → Bool) (t : AList (fun _ : κ ↦ ν)) :
    (retain p t).lookup k = (t.lookup k).filter (p k) := by
  ext v
  have hmem : ⟨k, v⟩ ∈ t.entries ↔ t.lookup k = some v := AList.mem_lookup_iff.symm
  rw [← Option.mem_def, AList.mem_lookup_iff, retain, List.mem_filter, hmem,
    Option.filter_eq_some_iff]

omit [DecidableEq κ] in
theorem total_retain (f : ν → ℕ) (p : κ → ν → Bool) (t : AList (fun _ : κ ↦ ν))
    (h : ∀ k v, p k v = false → f v = 0) : total f (retain p t) = total f t := by
  change ((t.entries.filter (fun e ↦ p e.1 e.2)).map (fun e ↦ f e.2)).sum =
    (t.entries.map (fun e ↦ f e.2)).sum
  induction t.entries with
  | nil => rfl
  | cons e entries ih =>
    rw [List.map_cons, List.sum_cons, ← ih, List.filter_cons]
    split
    · rw [List.map_cons, List.sum_cons]
    · rename_i hdrop
      rw [h e.1 e.2 (Bool.eq_false_of_not_eq_true hdrop), Nat.zero_add]

/-- `values_mut`: every value is changed in place. -/
def mapValues (f : ν → ν) (t : AList (fun _ : κ ↦ ν)) : AList (fun _ : κ ↦ ν) :=
  ⟨t.entries.map (fun e ↦ ⟨e.1, f e.2⟩), t.nodupKeys.map₂ (fun _ v ↦ f v)⟩

theorem lookup_mapValues (f : ν → ν) (t : AList (fun _ : κ ↦ ν)) :
    (mapValues f t).lookup k = (t.lookup k).map f :=
  List.dlookup_map₂ (f := fun _ v ↦ f v) k

section Overlay

open Std

variable {α κ ν : Type} [Ord κ] [TransOrd κ] [LawfulEqOrd κ] [DecidableEq κ]

/-- Of entries written one after the other, the last one for a key stands. -/
theorem getElem?_foldl_insert (key : α → κ) (value : α → ν) (m : ExtTreeMap κ ν) (l : List α)
    (k : κ) :
    (l.foldl (fun m a ↦ m.insert (key a) (value a)) m)[k]? =
      ((l.reverse.find? (fun a ↦ decide (key a = k))).map value).or m[k]? := by
  induction l using List.reverseRecOn with
  | nil => rfl
  | append_singleton l a ih =>
    rw [List.foldl_append, List.foldl_cons, List.foldl_nil, ExtTreeMap.getElem?_insert, ih,
      List.reverse_append, List.reverse_singleton, List.singleton_append, List.find?_cons]
    simp only [Std.compare_eq_iff_eq]
    by_cases hk : key a = k
    · simp [hk]
    · simp [hk]

end Overlay

end Aldivine.Foundation.Table
