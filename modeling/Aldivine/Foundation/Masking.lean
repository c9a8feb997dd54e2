import Mathlib.Data.List.Chain

namespace Aldivine.Foundation.Masking

variable {β ι : Type}

def blank (mask : β) : List β → List β
  | [] => []
  | _ :: l => mask :: l

/-- What stands behind the first segment that satisfies `p` is masked. -/
def maskAfter (p : β → Bool) (mask : β) : List β → List β
  | [] => []
  | s :: l => s :: if p s then blank mask l else maskAfter p mask l

/-- For each mark in turn, what stands behind the first segment that it ends is masked. -/
def maskAll (ends : ι → β → Bool) (mask : β) (marks : List ι) (l : List β) : List β :=
  marks.foldl (fun l i ↦ maskAfter (ends i) mask l) l

def Masked (known : β → Bool) (mask : β) (l : List β) : Prop :=
  l.IsChain (fun s t ↦ known s = true → t = mask)

/-- A segment that stays, and the marks that no segment before it has taken; or one that is masked,
between the turns of `early` and of `late`. -/
inductive Outlook (ι : Type)
  | kept (marks : List ι)
  | masked (early late : List ι)

/-- What becomes of the segment behind one: the first mark to end that one has it masked. -/
def Outlook.next (ends : ι → β → Bool) (s : β) (marks late : List ι) : Outlook ι :=
  if marks.any (fun i ↦ ends i s) then
    .masked (marks.takeWhile (fun i ↦ !ends i s))
      ((marks.dropWhile (fun i ↦ !ends i s)).filter (fun i ↦ !ends i s) ++ late)
  else .kept (marks ++ late)

def Outlook.marks : Outlook ι → List ι
  | .kept marks => marks
  | .masked early late => early ++ late

/-- Every known segment that stays is ended by a mark that no segment before it has taken, or has
the mask behind it already. -/
def Covered (ends : ι → β → Bool) (known : β → Bool) (mask : β) : Outlook ι → List β → Prop
  | _, [] => True
  | _, [_] => True
  | .kept marks, s :: t :: l =>
    (known s = true → marks.any (fun i ↦ ends i s) = true ∨ t = mask) ∧
      Covered ends known mask (.next ends s marks []) (t :: l)
  | .masked early late, s :: t :: l => Covered ends known mask (.next ends s early late) (t :: l)

def Outlook.outcome (ends : ι → β → Bool) (mask : β) : Outlook ι → List β → List β
  | .kept marks, l => maskAll ends mask marks l
  | .masked early late, l => maskAll ends mask late (blank mask (maskAll ends mask early l))

variable {ends : ι → β → Bool} {known : β → Bool} {mask s t : β} {marks early late : List ι}
  {l : List β}

section Turns

theorem maskAll_append (l : List β) :
    maskAll ends mask (early ++ late) l = maskAll ends mask late (maskAll ends mask early l) :=
  List.foldl_append

theorem blank_maskAfter {p : β → Bool} (h : blank mask l = l) :
    blank mask (maskAfter p mask l) = maskAfter p mask l := by
  cases l with
  | nil => rfl
  | cons s l =>
    obtain ⟨hs, -⟩ := List.cons.inj h
    rw [maskAfter, blank, hs]

theorem maskAll_done (h : blank mask l = l) :
    maskAll ends mask marks (s :: l) =
      s :: maskAll ends mask (marks.filter (fun i ↦ !ends i s)) l := by
  induction marks generalizing l with
  | nil => rfl
  | cons i marks ih =>
    rw [maskAll, List.foldl_cons, maskAfter]
    cases hi : ends i s with
    | true =>
      rw [if_pos rfl, h, List.filter_cons_of_neg (by simp [hi])]
      exact ih h
    | false =>
      rw [if_neg Bool.false_ne_true, List.filter_cons_of_pos (by simp [hi])]
      exact ih (blank_maskAfter h)

theorem blank_blank (l : List β) : blank mask (blank mask l) = blank mask l := by
  cases l with
  | nil => rfl
  | cons s l => rfl

theorem next_hit {i : ι} (h : ends i s = true) :
    Outlook.next ends s (i :: marks) late =
      .masked [] (marks.filter (fun i ↦ !ends i s) ++ late) := by
  simp [Outlook.next, h]

theorem outcome_next_miss {i : ι} (h : ends i s = false) (l : List β) :
    (Outlook.next ends s (i :: marks) late).outcome ends mask l =
      (Outlook.next ends s marks late).outcome ends mask (maskAfter (ends i) mask l) := by
  simp only [Outlook.next, List.any_cons, h, Bool.false_or]
  split_ifs with hany
  · simp [h, Outlook.outcome, maskAll]
  · rfl

theorem maskAll_cons (marks : List ι) (s : β) (l : List β) :
    maskAll ends mask marks (s :: l) = s :: (Outlook.next ends s marks []).outcome ends mask l := by
  induction marks generalizing l with
  | nil => rfl
  | cons i marks ih =>
    rw [maskAll, List.foldl_cons, maskAfter]
    cases hi : ends i s with
    | true =>
      rw [if_pos rfl, next_hit hi, List.append_nil]
      exact maskAll_done (blank_blank l)
    | false =>
      rw [if_neg Bool.false_ne_true, outcome_next_miss hi]
      exact ih _

theorem maskAll_mask (h : ∀ i ∈ marks, ends i mask = false) (l : List β) :
    maskAll ends mask marks (mask :: l) = mask :: maskAll ends mask marks l := by
  induction marks generalizing l with
  | nil => rfl
  | cons i marks ih =>
    obtain ⟨hi, hmarks⟩ := List.forall_mem_cons.mp h
    rw [maskAll, List.foldl_cons, maskAfter, if_neg (by simp [hi])]
    exact ih hmarks _

theorem outcome_next (marks late : List ι) (s : β) (l : List β) :
    maskAll ends mask late ((Outlook.next ends s marks []).outcome ends mask l) =
      (Outlook.next ends s marks late).outcome ends mask l := by
  unfold Outlook.next
  split_ifs with hany
  · rw [Outlook.outcome, Outlook.outcome, ← maskAll_append, List.append_nil]
  · rw [Outlook.outcome, Outlook.outcome, ← maskAll_append, List.append_nil]

theorem outcome_masked (h : ∀ i ∈ late, ends i mask = false) (s : β) (l : List β) :
    (Outlook.masked early late).outcome ends mask (s :: l) =
      mask :: (Outlook.next ends s early late).outcome ends mask l := by
  rw [Outlook.outcome, maskAll_cons, blank, maskAll_mask h, outcome_next]

end Turns

section Conditions

theorem maskAll_nil (marks : List ι) : maskAll ends mask marks [] = [] := by
  induction marks with
  | nil => rfl
  | cons i marks ih => exact ih

theorem outcome_nil (outlook : Outlook ι) : outlook.outcome ends mask [] = [] := by
  cases outlook with
  | kept marks => exact maskAll_nil marks
  | masked early late => rw [Outlook.outcome, maskAll_nil, blank, maskAll_nil]

theorem marks_next (ends : ι → β → Bool) (s : β) (marks late : List ι) :
    (Outlook.next ends s marks late).marks ⊆ marks ++ late := by
  intro i hi
  unfold Outlook.next at hi
  split_ifs at hi with hany
  · rw [Outlook.marks, ← List.append_assoc, List.mem_append, List.mem_append] at hi
    rw [List.mem_append]
    rcases hi with (hi | hi) | hi
    · exact .inl ((List.takeWhile_sublist _).mem hi)
    · exact .inl ((List.dropWhile_sublist _).mem (List.mem_filter.mp hi).1)
    · exact .inr hi
  · exact hi

theorem outcome_head (h : ∀ i ∈ marks ++ late, ends i mask = false) (s t : β) (l : List β) :
    ∃ l', (Outlook.next ends s marks late).outcome ends mask (t :: l) =
      (if marks.any (fun i ↦ ends i s) then mask else t) :: l' := by
  have hsub := marks_next ends s marks late
  unfold Outlook.next at hsub ⊢
  split_ifs at hsub ⊢ with hany
  · exact ⟨_, outcome_masked (fun i hi ↦ h i (hsub (List.mem_append_right _ hi))) t l⟩
  · exact ⟨_, maskAll_cons _ t l⟩

theorem covered_iff (hmask : known mask = false) (outlook : Outlook ι)
    (h : ∀ i ∈ outlook.marks, ends i mask = false) (l : List β) :
    Masked known mask (outlook.outcome ends mask l) ↔ Covered ends known mask outlook l := by
  induction l generalizing outlook with
  | nil =>
    rw [outcome_nil]
    exact iff_of_true .nil (by cases outlook <;> trivial)
  | cons s l ih =>
    cases l with
    | nil =>
      cases outlook with
      | kept marks =>
        rw [Outlook.outcome, maskAll_cons, outcome_nil]
        exact iff_of_true (.singleton s) trivial
      | masked early late =>
        rw [outcome_masked (fun i hi ↦ h i (List.mem_append_right _ hi)), outcome_nil]
        exact iff_of_true (.singleton mask) trivial
    | cons t l =>
      cases outlook with
      | kept marks =>
        have hmarks : ∀ i ∈ marks ++ [], ends i mask = false := by rwa [List.append_nil]
        obtain ⟨l', hhead⟩ := outcome_head hmarks s t l
        have hrest := ih (.next ends s marks [])
          (fun i hi ↦ hmarks i (marks_next ends s marks [] hi))
        rw [Outlook.outcome, maskAll_cons, Covered, ← hrest, hhead, Masked, List.isChain_cons_cons]
        refine and_congr_left' (imp_congr_right (fun _ ↦ ?_))
        split_ifs with hany
        · exact iff_of_true rfl (.inl hany)
        · exact (or_iff_right hany).symm
      | masked early late =>
        obtain ⟨l', hhead⟩ := outcome_head h s t l
        have hrest := ih (.next ends s early late)
          (fun i hi ↦ h i (marks_next ends s early late hi))
        rw [outcome_masked (fun i hi ↦ h i (List.mem_append_right _ hi)), Covered, ← hrest, hhead,
          Masked, List.isChain_cons_cons, hmask]
        exact and_iff_right (fun hfalse ↦ by cases hfalse)

/-- All is masked in the end if and only if each known segment that stays is served in its turn. -/
theorem masked_maskAll_iff (hmask : known mask = false) (h : ∀ i ∈ marks, ends i mask = false)
    (l : List β) :
    Masked known mask (maskAll ends mask marks l) ↔ Covered ends known mask (.kept marks) l :=
  covered_iff hmask (.kept marks) h l

theorem Masked.maskAfter_eq {p : β → Bool} (h : Masked known mask l)
    (hp : ∀ s, p s = true → known s = true) : maskAfter p mask l = l := by
  induction l with
  | nil => rfl
  | cons s l ih =>
    rw [maskAfter]
    split_ifs with hs
    · cases l with
      | nil => rfl
      | cons t l => rw [blank, (List.isChain_cons_cons.mp h).1 (hp s hs)]
    · rw [ih (List.isChain_of_isChain_cons h)]

theorem Masked.maskAll_eq (h : Masked known mask l)
    (hends : ∀ i ∈ marks, ∀ s, ends i s = true → known s = true) :
    maskAll ends mask marks l = l := by
  induction marks with
  | nil => rfl
  | cons i marks ih =>
    obtain ⟨hi, hmarks⟩ := List.forall_mem_cons.mp hends
    rw [maskAll, List.foldl_cons, h.maskAfter_eq hi]
    exact ih hmarks

theorem forall_mem_maskAfter {P : β → Prop} {p : β → Bool} (hl : ∀ u ∈ l, P u) (hmask : P mask) :
    ∀ u ∈ maskAfter p mask l, P u := by
  induction l with
  | nil => exact hl
  | cons s l ih =>
    obtain ⟨hs, hl⟩ := List.forall_mem_cons.mp hl
    rw [maskAfter, List.forall_mem_cons]
    refine ⟨hs, ?_⟩
    split_ifs
    · cases l with
      | nil => exact hl
      | cons t l => exact List.forall_mem_cons.mpr ⟨hmask, (List.forall_mem_cons.mp hl).2⟩
    · exact ih hl

theorem forall_mem_maskAll {P : β → Prop} (hl : ∀ u ∈ l, P u) (hmask : P mask) :
    ∀ u ∈ maskAll ends mask marks l, P u := by
  induction marks generalizing l with
  | nil => exact hl
  | cons i marks ih => exact ih (forall_mem_maskAfter hl hmask)

end Conditions

section Texts

variable {α : Type} [DecidableEq α] {q : α} {p u v : List α} {segments : List (List α)}

def find (pat : List α) : List α → Option ℕ
  | [] => if pat = [] then some 0 else none
  | a :: l => if pat <+: a :: l then some 0 else (find pat l).map (· + 1)

/-- The text of segments that each end with `q`, and of what stands behind them. -/
def textOf (q : α) (segments : List (List α)) (last : List α) : List α :=
  segments.flatMap (· ++ [q]) ++ last

omit [DecidableEq α] in
theorem textOf_cons (q : α) (u : List α) (segments : List (List α)) (last : List α) :
    textOf q (u :: segments) last = u ++ q :: textOf q segments last := by
  simp [textOf]

omit [DecidableEq α] in
theorem prefix_segment_iff (hp : q ∉ p) (hu : q ∉ u) (l : List α) :
    p ++ [q] <+: u ++ q :: l ↔ p = u := by
  induction p generalizing u with
  | nil =>
    cases u with
    | nil => simp
    | cons a u =>
      have hne : q ≠ a := (List.ne_and_not_mem_of_not_mem_cons hu).1
      simp [hne]
  | cons b p ih =>
    cases u with
    | nil =>
      have hne : b ≠ q := (List.ne_and_not_mem_of_not_mem_cons hp).1.symm
      simp [hne]
    | cons a u =>
      rw [List.cons_append, List.cons_append, List.cons_prefix_cons, List.cons.injEq,
        ih (List.not_mem_of_not_mem_cons hp) (List.not_mem_of_not_mem_cons hu)]

theorem find_eq_none (h : q ∉ u) : find (p ++ [q]) u = none := by
  induction u with
  | nil => simp [find]
  | cons a u ih =>
    have hnot : ¬p ++ [q] <+: a :: u := fun hpre ↦ h (hpre.subset (by simp))
    rw [find, if_neg hnot, ih (List.not_mem_of_not_mem_cons h), Option.map_none]

theorem find_segment (hp : q ∉ p) (hu : q ∉ u) (l : List α) :
    find (p ++ [q]) (u ++ q :: l) =
      if p <:+ u then some (u.length - p.length)
      else (find (p ++ [q]) l).map (· + (u.length + 1)) := by
  induction u with
  | nil =>
    have hhere := prefix_segment_iff hp hu l
    rw [List.nil_append] at hhere ⊢
    by_cases h : p = []
    · rw [find, if_pos (hhere.mpr h), if_pos (List.suffix_nil.mpr h), List.length_nil,
        Nat.zero_sub]
    · rw [find, if_neg (mt hhere.mp h), if_neg (mt List.suffix_nil.mp h), List.length_nil]
  | cons a u ih =>
    have hhere := prefix_segment_iff hp hu l
    have hrest := ih (List.not_mem_of_not_mem_cons hu)
    rw [List.cons_append] at hhere ⊢
    by_cases hall : p = a :: u
    · rw [find, if_pos (hhere.mpr hall), if_pos (hall ▸ List.suffix_refl _), hall, Nat.sub_self]
    · rw [find, if_neg (mt hhere.mp hall), hrest]
      by_cases hend : p <:+ u
      · have hlen := hend.length_le
        rw [if_pos hend, if_pos (hend.trans (List.suffix_cons a u)), Option.map_some,
          List.length_cons, Nat.sub_add_comm hlen]
      · have hnot : ¬p <:+ a :: u := fun h ↦ (List.suffix_cons_iff.mp h).elim hall hend
        rw [if_neg hend, if_neg hnot, Option.map_map]
        rfl

theorem find_quote (hu : q ∉ u) (l : List α) : find [q] (u ++ q :: l) = some u.length :=
  (find_segment List.not_mem_nil hu l).trans (if_pos List.nil_suffix)

end Texts

end Aldivine.Foundation.Masking
