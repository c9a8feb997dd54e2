import Aldivine.Foundation.Pieces
import Aldivine.Node.Resolver

namespace Aldivine.Node.Paths

open Foundation.Pieces Resolver

structure Name (s : Path) : Prop where
  nonempty : s ≠ []
  here : s ≠ ['.']
  above : s ≠ ['.', '.']
  slash : '/' ∉ s

def pathOf (segs : List Path) : Path :=
  if segs = [] then ['/'] else segs.flatMap ('/' :: ·)

def Normal (p : Path) : Prop := ∃ segs, (∀ s ∈ segs, Name s) ∧ p = pathOf segs

section Slashes

variable {s p : Path} {segs : List Path}

theorem pathOf_of_ne (h : segs ≠ []) : pathOf segs = segs.flatMap ('/' :: ·) := if_neg h

theorem slash_intercalate (h : segs ≠ []) :
    '/' :: ['/'].intercalate segs = segs.flatMap ('/' :: ·) := by
  induction segs with
  | nil => exact absurd rfl h
  | cons s segs ih =>
    cases segs with
    | nil => simp
    | cons next segs =>
      have hrest := ih (List.cons_ne_nil _ _)
      rw [List.intercalate_cons_of_ne_nil (List.cons_ne_nil _ _), List.flatMap_cons, ← hrest]
      simp

theorem join_eq_pathOf (segs : List Path) : '/' :: ['/'].intercalate segs = pathOf segs := by
  by_cases h : segs = []
  · rw [h]
    rfl
  · rw [pathOf_of_ne h, slash_intercalate h]

theorem slash_splitOn (p : Path) : '/' :: p = (p.splitOn '/').flatMap ('/' :: ·) := by
  rw [← slash_intercalate (List.splitOn_ne_nil _ _), List.intercalate_splitOn]

theorem splitOn_flatMap (h : ∀ s ∈ segs, '/' ∉ s) :
    (segs.flatMap ('/' :: ·)).splitOn '/' = [] :: segs := by
  by_cases hne : segs = []
  · rw [hne]
    rfl
  · rw [← slash_intercalate hne, List.splitOn_cons_eq_if_modifyHead, if_pos (by decide),
      List.splitOn_intercalate '/' h hne]

theorem pathOf_concat (h : segs ≠ []) (s : Path) : pathOf segs ++ '/' :: s = pathOf (segs ++ [s]) := by
  rw [pathOf_of_ne h, pathOf_of_ne (by simp), List.flatMap_append, List.flatMap_singleton]

theorem pathOf_ne_root (hnames : ∀ s ∈ segs, Name s) (h : segs ≠ []) : pathOf segs ≠ ['/'] := by
  cases segs with
  | nil => exact absurd rfl h
  | cons s segs =>
    rw [pathOf_of_ne h, List.flatMap_cons]
    intro heq
    have hnil := (List.append_eq_nil_iff.mp (List.cons.inj heq).2).1
    exact (hnames s List.mem_cons_self).nonempty hnil

theorem trimSlash_pathOf (hnames : ∀ s ∈ segs, Name s) (h : segs ≠ []) :
    trimSlash (pathOf segs) = pathOf segs := by
  rw [trimSlash, if_neg (pathOf_ne_root hnames h)]
  obtain ⟨front, s, rfl⟩ := (List.eq_nil_or_concat' _).resolve_left h
  have hs := hnames s (by simp)
  obtain ⟨init, c, rfl⟩ := (List.eq_nil_or_concat' _).resolve_left hs.nonempty
  have hc : c ≠ '/' := by
    intro hc
    exact hs.slash (by rw [hc]; simp)
  rw [pathOf_of_ne h, List.flatMap_append, List.flatMap_singleton, ← List.cons_append,
    ← List.append_assoc]
  exact List.rdropWhile_concat_neg _ _ _ (by simpa using hc)

theorem parentOf_pathOf {front : List Path} (hnames : ∀ t ∈ front ++ [s], Name t) :
    parentOf (pathOf (front ++ [s])) = pathOf front := by
  have hne : front ++ [s] ≠ [] := by simp
  have hs := hnames s (by simp)
  have hroot := pathOf_ne_root hnames hne
  have hnil : pathOf (front ++ [s]) ≠ [] := by
    rw [pathOf_of_ne hne, List.flatMap_append, List.flatMap_singleton]
    simp
  have hdrop : (pathOf (front ++ [s])).reverse.dropWhile (· ≠ '/') =
      '/' :: (front.flatMap ('/' :: ·)).reverse := by
    rw [pathOf_of_ne hne, List.flatMap_append, List.flatMap_singleton, List.reverse_append,
      List.reverse_cons, List.append_assoc, List.singleton_append]
    refine (List.dropWhile_append_of_pos (fun c hc ↦ ?_)).trans
      (List.dropWhile_cons_of_neg (by decide))
    have hne : c ≠ '/' := fun heq ↦ hs.slash (heq ▸ List.mem_reverse.mp hc)
    simpa using hne
  simp only [parentOf, trimSlash_pathOf hnames hne, if_neg (not_or.mpr ⟨hroot, hnil⟩)]
  rw [hdrop]
  by_cases hfront : front = []
  · rw [hfront]
    rfl
  · rw [pathOf_of_ne hfront]
    cases hrev : (front.flatMap ('/' :: ·)).reverse with
    | nil =>
      exfalso
      have hflat := List.reverse_eq_nil_iff.mp hrev
      rw [← pathOf_of_ne hfront] at hflat
      cases front with
      | nil => exact hfront rfl
      | cons t front =>
        rw [pathOf_of_ne hfront, List.flatMap_cons] at hflat
        cases hflat
    | cons c cs => simp only [← hrev, List.reverse_reverse]

end Slashes

section Normals

variable {s p : Path} {segs : List Path}

theorem name_append_ext (h : Name s) {e : Path × ResolveKind} (he : e ∈ probeExts) :
    Name (s ++ e.1) := by
  have hext : 2 < e.1.length ∧ '/' ∉ e.1 := by
    revert e
    decide
  refine ⟨by simp [h.nonempty], fun heq ↦ ?_, fun heq ↦ ?_, ?_⟩
  · have hlen := congrArg List.length heq
    rw [List.length_append, List.length_singleton] at hlen
    omega
  · have hlen := congrArg List.length heq
    rw [List.length_append, List.length_cons, List.length_singleton] at hlen
    omega
  · rw [List.mem_append, not_or]
    exact ⟨h.slash, hext.2⟩

theorem name_ext {e : Path × ResolveKind} (he : e ∈ probeExts) : Name e.1 := by
  have hext : e.1 ≠ [] ∧ e.1 ≠ ['.'] ∧ e.1 ≠ ['.', '.'] ∧ '/' ∉ e.1 := by
    revert e
    decide
  exact ⟨hext.1, hext.2.1, hext.2.2.1, hext.2.2.2⟩

theorem Normal.ext (h : Normal p) {e : Path × ResolveKind} (he : e ∈ probeExts) :
    Normal (p ++ e.1) := by
  obtain ⟨segs, hnames, rfl⟩ := h
  by_cases hne : segs = []
  · refine ⟨[e.1], List.forall_mem_singleton.mpr (name_ext he), ?_⟩
    rw [hne, pathOf_of_ne (List.cons_ne_nil _ _), List.flatMap_singleton]
    rfl
  · obtain ⟨front, s, rfl⟩ := (List.eq_nil_or_concat' _).resolve_left hne
    rw [List.forall_mem_append, List.forall_mem_singleton] at hnames
    refine ⟨front ++ [s ++ e.1], ?_, ?_⟩
    · rw [List.forall_mem_append, List.forall_mem_singleton]
      exact ⟨hnames.1, name_append_ext hnames.2 he⟩
    · rw [pathOf_of_ne hne, pathOf_of_ne (by simp), List.flatMap_append, List.flatMap_append,
        List.flatMap_singleton, List.flatMap_singleton, List.append_assoc, List.cons_append]

theorem Normal.inside (h : Normal p) (hroot : p ≠ ['/']) (hs : Name s) :
    Normal (trimSlash p ++ '/' :: s) := by
  obtain ⟨segs, hnames, rfl⟩ := h
  have hne : segs ≠ [] := by
    intro hnil
    rw [hnil] at hroot
    exact hroot rfl
  rw [trimSlash_pathOf hnames hne, pathOf_concat hne]
  refine ⟨_, ?_, rfl⟩
  rw [List.forall_mem_append, List.forall_mem_singleton]
  exact ⟨hnames, hs⟩

theorem not_normal_slashes (p : Path) : ¬Normal ('/' :: '/' :: p) := by
  intro h
  obtain ⟨segs, hnames, heq⟩ := h
  cases segs with
  | nil => cases heq
  | cons s segs =>
    rw [pathOf_of_ne (List.cons_ne_nil _ _), List.flatMap_cons, List.cons_append] at heq
    have hs := hnames s List.mem_cons_self
    obtain ⟨c, cs, rfl⟩ := List.exists_cons_of_ne_nil hs.nonempty
    rw [List.cons_append, List.cons.injEq, List.cons.injEq] at heq
    exact hs.slash (by rw [← heq.2.1]; exact List.mem_cons_self)

theorem Normal.names {front rest : Path} (h : Normal (front ++ '/' :: rest)) (hrest : rest ≠ []) :
    ∀ s ∈ rest.splitOn '/', Name s := by
  obtain ⟨segs, hnames, heq⟩ := h
  have hne : segs ≠ [] := by
    intro hnil
    rw [hnil] at heq
    have hlen := congrArg List.length heq
    have hpos := List.length_pos_iff.mpr hrest
    rw [List.length_append, List.length_cons] at hlen
    have hone : (pathOf []).length = 1 := rfl
    omega
  have hsplit := congrArg (List.splitOn '/') heq
  rw [List.splitOn_append_cons_self, pathOf_of_ne hne,
    splitOn_flatMap (fun s hs ↦ (hnames s hs).slash)] at hsplit
  obtain ⟨first, more, hfront⟩ := List.exists_cons_of_ne_nil (List.splitOn_ne_nil '/' front)
  rw [hfront, List.cons_append, List.cons.injEq] at hsplit
  intro s hs
  exact hnames s (hsplit.2 ▸ List.mem_append_right _ hs)

theorem joinSegment_names {parts : List Path} {seg : Path} (h : ∀ s ∈ parts, Name s)
    (hseg : '/' ∉ seg) : ∀ s ∈ joinSegment parts seg, Name s := by
  unfold joinSegment
  split
  · exact h
  · rename_i hhere
    split
    · exact fun s hs ↦ h s ((List.dropLast_sublist _).subset hs)
    · rename_i habove
      rw [not_or] at hhere
      rw [List.forall_mem_append, List.forall_mem_singleton]
      exact ⟨h, hhere.1, hhere.2, habove, hseg⟩

theorem foldl_joinSegment_names {parts rel : List Path} (h : ∀ s ∈ parts, Name s)
    (hrel : ∀ seg ∈ rel, '/' ∉ seg) : ∀ s ∈ rel.foldl joinSegment parts, Name s := by
  induction rel generalizing parts with
  | nil => exact h
  | cons seg rel ih =>
    obtain ⟨hseg, hrel⟩ := List.forall_mem_cons.mp hrel
    exact ih (joinSegment_names h hseg) hrel

/-- Whatever a main says, it leads to a path in good order. -/
theorem Normal.join (h : Normal p) (rel : Path) : Normal (join p rel) := by
  obtain ⟨segs, hnames, rfl⟩ := h
  refine ⟨_, foldl_joinSegment_names ?_ (fun seg hseg ↦ not_mem_of_mem_splitOn hseg),
    join_eq_pathOf _⟩
  by_cases hne : segs = []
  · have hnone : ((trimSlash (pathOf [])).splitOn '/').filter (· ≠ []) = [] := by decide
    rw [hne, hnone]
    exact List.forall_mem_nil _
  · rw [trimSlash_pathOf hnames hne, pathOf_of_ne hne,
      splitOn_flatMap (fun s hs ↦ (hnames s hs).slash)]
    intro s hs
    obtain ⟨hs, hnil⟩ := List.mem_filter.mp hs
    exact hnames s ((List.mem_cons.mp hs).resolve_left (of_decide_eq_true hnil))

end Normals

end Aldivine.Node.Paths
