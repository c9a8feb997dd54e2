import Mathlib.Data.List.Basic

namespace Aldivine.Foundation.Pieces

section Images

variable {α β : Type} {f : α → List β} {g : α → β} {l : List α}

theorem length_le_flatMap (h : ∀ a ∈ l, f a ≠ []) : l.length ≤ (l.flatMap f).length := by
  induction l with
  | nil => exact Nat.le_refl _
  | cons a l ih =>
    obtain ⟨ha, hl⟩ := List.forall_mem_cons.mp h
    have hpos := List.length_pos_iff.mpr ha
    have hrest := ih hl
    rw [List.flatMap_cons, List.length_append, List.length_cons]
    omega

theorem flatMap_eq_map_iff (h : ∀ a ∈ l, f a ≠ []) :
    l.flatMap f = l.map g ↔ ∀ a ∈ l, f a = [g a] := by
  induction l with
  | nil => exact iff_of_true rfl (List.forall_mem_nil _)
  | cons a l ih =>
    obtain ⟨ha, hl⟩ := List.forall_mem_cons.mp h
    rw [List.forall_mem_cons, List.flatMap_cons, List.map_cons]
    constructor
    · intro heq
      have hlen := congrArg List.length heq
      have hpos := List.length_pos_iff.mpr ha
      have hrest := length_le_flatMap hl
      rw [List.length_append, List.length_cons, List.length_map] at hlen
      have hone : (f a).length = [g a].length := by
        rw [List.length_singleton]
        omega
      obtain ⟨hfirst, hmap⟩ := List.append_inj heq hone
      exact ⟨hfirst, (ih hl).mp hmap⟩
    · intro heq
      rw [heq.1, (ih hl).mpr heq.2, List.singleton_append]

theorem length_flatMap_le {g : α → List β} (h : ∀ a ∈ l, (f a).length ≤ (g a).length) :
    (l.flatMap f).length ≤ (l.flatMap g).length := by
  induction l with
  | nil => exact Nat.le_refl _
  | cons a l ih =>
    obtain ⟨ha, hl⟩ := List.forall_mem_cons.mp h
    rw [List.flatMap_cons, List.flatMap_cons, List.length_append, List.length_append]
    exact Nat.add_le_add ha (ih hl)

theorem length_eq_of_flatMap {g : α → List β} (h : ∀ a ∈ l, (f a).length ≤ (g a).length)
    (heq : (l.flatMap f).length = (l.flatMap g).length) :
    ∀ a ∈ l, (f a).length = (g a).length := by
  induction l with
  | nil => exact List.forall_mem_nil _
  | cons a l ih =>
    obtain ⟨ha, hl⟩ := List.forall_mem_cons.mp h
    have hrest := length_flatMap_le hl
    rw [List.flatMap_cons, List.flatMap_cons, List.length_append, List.length_append] at heq
    exact List.forall_mem_cons.mpr ⟨by omega, ih hl (by omega)⟩

end Images

section Splitting

variable {α : Type} [BEq α] [LawfulBEq α] {sep : α} {parts : List (List α)}

theorem not_mem_of_mem_splitOn {l part : List α} (h : part ∈ l.splitOn sep) : sep ∉ part := by
  induction l generalizing part with
  | nil =>
    rw [List.splitOn_nil, List.mem_singleton] at h
    rw [h]
    exact List.not_mem_nil
  | cons a l ih =>
    rw [List.splitOn_cons_eq_if_modifyHead] at h
    split at h
    · rcases List.mem_cons.mp h with h | h
      · rw [h]
        exact List.not_mem_nil
      · exact ih h
    · rename_i ha
      cases hsplit : l.splitOn sep with
      | nil => exact absurd hsplit (List.splitOn_ne_nil _ _)
      | cons first rest =>
        rw [hsplit, List.modifyHead_cons] at h
        rw [hsplit] at ih
        rcases List.mem_cons.mp h with h | h
        · rw [h, List.mem_cons, not_or]
          exact ⟨fun heq ↦ ha (beq_iff_eq.mpr heq.symm), ih List.mem_cons_self⟩
        · exact ih (List.mem_cons_of_mem _ h)

omit [LawfulBEq α] in
theorem subset_of_mem_splitOn {l part : List α} (h : part ∈ l.splitOn sep) : part ⊆ l := by
  induction l generalizing part with
  | nil =>
    rw [List.splitOn_nil, List.mem_singleton] at h
    rw [h]
    exact List.Subset.refl _
  | cons a l ih =>
    rw [List.splitOn_cons_eq_if_modifyHead] at h
    split at h
    · rcases List.mem_cons.mp h with h | h
      · rw [h]
        exact List.nil_subset _
      · exact List.subset_cons_of_subset _ (ih h)
    · cases hsplit : l.splitOn sep with
      | nil => exact absurd hsplit (List.splitOn_ne_nil _ _)
      | cons first rest =>
        rw [hsplit, List.modifyHead_cons] at h
        rw [hsplit] at ih
        rcases List.mem_cons.mp h with h | h
        · rw [h]
          exact List.cons_subset_cons _ (ih List.mem_cons_self)
        · exact List.subset_cons_of_subset _ (ih (List.mem_cons_of_mem _ h))

omit [BEq α] [LawfulBEq α] in
theorem mem_intercalate {a : α} (h : a ∈ [sep].intercalate parts) :
    a = sep ∨ ∃ part ∈ parts, a ∈ part := by
  induction parts with
  | nil => cases h
  | cons part parts ih =>
    cases parts with
    | nil =>
      have hmem : a ∈ part := by simpa [List.intercalate] using h
      exact .inr ⟨part, List.mem_cons_self, hmem⟩
    | cons next parts =>
      have hcons : [sep].intercalate (part :: next :: parts) =
          part ++ sep :: [sep].intercalate (next :: parts) := by
        simp [List.intercalate]
      rw [hcons, List.mem_append, List.mem_cons] at h
      rcases h with h | h | h
      · exact .inr ⟨part, List.mem_cons_self, h⟩
      · exact .inl h
      · obtain hsep | ⟨other, hother, hmem⟩ := ih h
        · exact .inl hsep
        · exact .inr ⟨other, List.mem_cons_of_mem _ hother, hmem⟩

omit [BEq α] [LawfulBEq α] in
theorem intercalate_append (last first : List α) (more : List (List α)) :
    [sep].intercalate (parts ++ [last]) ++ [sep].intercalate (first :: more) =
      [sep].intercalate (parts ++ (last ++ first) :: more) := by
  induction parts with
  | nil =>
    cases more with
    | nil => simp
    | cons next more => simp [List.intercalate_cons_of_ne_nil]
  | cons part parts ih =>
    have hleft : parts ++ [last] ≠ [] := List.concat_ne_nil _ _
    have hboth : parts ++ (last ++ first) :: more ≠ [] := by simp
    rw [List.cons_append, List.cons_append, List.intercalate_cons_of_ne_nil hleft,
      List.intercalate_cons_of_ne_nil hboth, List.append_assoc, ih]

/-- The last piece of a text and the first piece of what follows it are one piece of both. -/
theorem splitOn_append {l m last first : List α} {more : List (List α)}
    (hl : l.splitOn sep = parts ++ [last]) (hm : m.splitOn sep = first :: more) :
    (l ++ m).splitOn sep = parts ++ (last ++ first) :: more := by
  have hleft : ∀ part ∈ parts ++ [last], sep ∉ part := by
    intro part hpart
    rw [← hl] at hpart
    exact not_mem_of_mem_splitOn hpart
  have hright : ∀ part ∈ first :: more, sep ∉ part := by
    intro part hpart
    rw [← hm] at hpart
    exact not_mem_of_mem_splitOn hpart
  rw [List.forall_mem_append, List.forall_mem_singleton] at hleft
  rw [List.forall_mem_cons] at hright
  have hparts : l ++ m = [sep].intercalate (parts ++ (last ++ first) :: more) := by
    rw [← intercalate_append, ← hl, ← hm, List.intercalate_splitOn, List.intercalate_splitOn]
  rw [hparts]
  refine List.splitOn_intercalate sep (fun part hpart ↦ ?_) (by simp)
  rcases List.mem_append.mp hpart with hpart | hpart
  · exact hleft.1 part hpart
  rcases List.mem_cons.mp hpart with rfl | hpart
  · rw [List.mem_append, not_or]
    exact ⟨hleft.2, hright.1⟩
  · exact hright.2 part hpart

omit [BEq α] [LawfulBEq α] in
/-- Splitting at either of two kinds of separators is splitting at one, and the pieces at the
other. -/
theorem splitOnP_or (p q : α → Bool) (l : List α) :
    l.splitOnP (fun a ↦ p a || q a) = (l.splitOnP p).flatMap (List.splitOnP q) := by
  induction l with
  | nil => rfl
  | cons a l ih =>
    rw [List.splitOnP_cons_eq_if_modifyHead, List.splitOnP_cons_eq_if_modifyHead, ih]
    cases hp : p a with
    | true => rfl
    | false =>
      cases hsplit : l.splitOnP p with
      | nil => exact absurd hsplit (List.splitOnP_ne_nil _ _)
      | cons first rest =>
        rw [if_neg Bool.false_ne_true, List.modifyHead_cons, List.flatMap_cons, List.flatMap_cons,
          Bool.false_or, List.splitOnP_cons_eq_if_modifyHead a first]
        cases hq : q a with
        | true => rfl
        | false =>
          cases hfirst : first.splitOnP q with
          | nil => exact absurd hfirst (List.splitOnP_ne_nil _ _)
          | cons piece pieces => rfl

theorem splitOn_terminated_append (parts : List (List α)) (last : List α) :
    (parts.flatMap (· ++ [sep]) ++ last).splitOn sep =
      parts.flatMap (List.splitOn sep) ++ last.splitOn sep := by
  induction parts with
  | nil => rfl
  | cons part parts ih =>
    rw [List.flatMap_cons, List.append_assoc, List.append_assoc, List.singleton_append,
      List.splitOn_append_cons_self, ih, List.flatMap_cons, List.append_assoc]

theorem splitOn_terminated (parts : List (List α)) :
    (parts.flatMap (· ++ [sep])).splitOn sep = parts.flatMap (List.splitOn sep) ++ [[]] := by
  have happend := @splitOn_terminated_append _ _ _ sep parts []
  rwa [List.append_nil, List.splitOn_nil] at happend

omit [LawfulBEq α] in
theorem length_splitOn (sep : α) (l : List α) : (l.splitOn sep).length = l.count sep + 1 := by
  induction l with
  | nil => rfl
  | cons a l ih =>
    rw [List.splitOn_cons_eq_if_modifyHead, List.count_cons]
    split
    · rw [List.length_cons, ih]
    · rw [List.length_modifyHead, ih, Nat.add_zero]

theorem one_lt_length_splitOn {l : List α} (h : sep ∈ l) : 1 < (l.splitOn sep).length := by
  obtain ⟨first, second, rfl⟩ := List.append_of_mem h
  have hfirst := List.length_pos_iff.mpr (List.splitOn_ne_nil sep first)
  have hsecond := List.length_pos_iff.mpr (List.splitOn_ne_nil sep second)
  rw [List.splitOn_append_cons_self, List.length_append]
  omega

/-- A separator inside a part makes more pieces than there are parts. -/
theorem not_mem_of_length_eq (h : (parts.flatMap (List.splitOn sep)).length = parts.length) :
    ∀ part ∈ parts, sep ∉ part := by
  induction parts with
  | nil => exact List.forall_mem_nil _
  | cons part parts ih =>
    have hpos := List.length_pos_iff.mpr (List.splitOn_ne_nil sep part)
    have hle := @length_le_flatMap _ _ (List.splitOn sep) parts
      (fun part _ ↦ List.splitOn_ne_nil sep part)
    rw [List.length_cons, List.flatMap_cons, List.length_append] at h
    refine List.forall_mem_cons.mpr ⟨fun hmem ↦ ?_, ih (by omega)⟩
    have hmany := one_lt_length_splitOn hmem
    omega

theorem flatMap_splitOn (h : ∀ part ∈ parts, sep ∉ part) :
    parts.flatMap (List.splitOn sep) = parts := by
  induction parts with
  | nil => rfl
  | cons part parts ih =>
    obtain ⟨hpart, hparts⟩ := List.forall_mem_cons.mp h
    rw [List.flatMap_cons, List.splitOn_eq_singleton hpart, ih hparts, List.singleton_append]

end Splitting

end Aldivine.Foundation.Pieces
