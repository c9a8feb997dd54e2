import Aldivine.Config.Includes

namespace Aldivine.Config.Confinement

open Includes Parsing Syntax

/-- The path does not begin with a separator, and no component of it is `..`. -/
def Relative (path : String) : Prop :=
  path.toList.head?.any isSeparator = false ∧ ['.', '.'] ∉ path.toList.splitOnP isSeparator

/-- A separator behind any number of `./`. -/
def Disguised (target : String) : Prop :=
  ∃ n c rest, target.toList = (List.replicate n ['.', '/']).flatten ++ c :: rest ∧
    isSeparator c = true

section Normalization

theorem head_trimDotSlash (path : List Char) :
    (trimDotSlash path).head?.any isSeparator = true ↔
      ∃ n c rest, path = (List.replicate n ['.', '/']).flatten ++ c :: rest ∧
        isSeparator c = true := by
  fun_induction trimDotSlash path with
  | case1 path ih =>
    rw [ih]
    constructor
    · rintro ⟨n, c, rest, rfl, hc⟩
      exact ⟨n + 1, c, rest, rfl, hc⟩
    · rintro ⟨n, c, rest, heq, hc⟩
      cases n with
      | zero =>
        cases heq
        cases hc
      | succ n =>
        simp only [List.replicate_succ, List.flatten_cons, List.cons_append, List.nil_append,
          List.cons.injEq, true_and] at heq
        exact ⟨n, c, rest, heq, hc⟩
  | case2 path hne =>
    constructor
    · intro h
      cases path with
      | nil => cases h
      | cons c rest => exact ⟨0, c, rest, rfl, h⟩
    · rintro ⟨n, c, rest, rfl, hc⟩
      cases n with
      | zero => exact hc
      | succ n => exact absurd rfl (hne _)

theorem isSeparator_slash (c : Char) : isSeparator (slash c) = isSeparator c := by
  unfold slash
  split
  · rename_i hc
    rw [hc]
    rfl
  · rfl

theorem splitOnP_map_slash (path : List Char) :
    (path.map slash).splitOnP isSeparator = path.splitOnP isSeparator := by
  induction path with
  | nil => rfl
  | cons c path ih =>
    rw [List.map_cons, List.splitOnP_cons_eq_if_modifyHead, List.splitOnP_cons_eq_if_modifyHead,
      isSeparator_slash, ih]
    cases hc : isSeparator c with
    | true => rfl
    | false =>
      have hslash : slash c = c := by
        rw [slash, if_neg]
        rintro rfl
        cases hc
      rw [hslash]

theorem mem_splitOnP_trimDotSlash {part path : List Char}
    (h : part ∈ (trimDotSlash path).splitOnP isSeparator) : part ∈ path.splitOnP isSeparator := by
  fun_induction trimDotSlash path with
  | case1 path ih =>
    have hsplit : ('.' :: '/' :: path).splitOnP isSeparator =
        ['.'] :: path.splitOnP isSeparator :=
      @List.splitOnP_append_cons_of_forall_mem _ isSeparator ['.']
        (List.forall_mem_singleton.mpr rfl) '/' (by decide) path
    rw [hsplit]
    exact List.mem_cons_of_mem _ (ih h)
  | case2 path hne => exact h

theorem relative_normalizeOwned (r : IncludeResolver) {target : String} {atLine : BitVec 32}
    (h : r.checkTarget target atLine = .ok ()) :
    Relative (normalizeOwned target) ↔ ¬Disguised target := by
  have hdots : ['.', '.'] ∉ target.toList.splitOnP isSeparator := by
    unfold IncludeResolver.checkTarget at h
    split at h
    · cases h
    split at h
    · cases h
    split at h
    · cases h
    · rename_i hnot
      rwa [List.contains_iff_mem] at hnot
  have hhead : (normalizeOwned target).toList.head?.any isSeparator =
      (trimDotSlash target.toList).head?.any isSeparator := by
    rw [normalizeOwned, String.toList_ofList, List.head?_map, Option.any_map]
    simp only [isSeparator_slash]
  have hparts : ['.', '.'] ∉ (normalizeOwned target).toList.splitOnP isSeparator := by
    rw [normalizeOwned, String.toList_ofList, splitOnP_map_slash]
    exact fun hmem ↦ hdots (mem_splitOnP_trimDotSlash hmem)
  rw [Relative, and_iff_left hparts, hhead, ← Bool.not_eq_true, head_trimDotSlash]
  rfl

end Normalization

section Reads

variable {α β : Type}

/-- What was asked for is the normalized target of a request that was let through. -/
def Admitted (r : IncludeResolver) (x : ExecRead) : Prop :=
  x.path = normalizeOwned x.target ∧ ∃ atLine, r.checkTarget x.target atLine = .ok ()

theorem reads_bind (x : Outcome α) (f : α → Outcome β) (P : ExecRead → Prop)
    (hx : ∀ y ∈ x.reads, P y) (hf : ∀ a, x.result = .ok a → ∀ y ∈ (f a).reads, P y) :
    ∀ y ∈ (x >>= f).reads, P y := by
  show ∀ y ∈ (x.bind f).reads, P y
  unfold Outcome.bind
  split
  · rename_i a ha
    exact List.forall_mem_append.mpr ⟨hx, hf a ha⟩
  · exact hx

variable {r : IncludeResolver}

theorem expandLines_reads {P : ExecRead → Prop}
    {expandTarget : String → List Line → BitVec 32 → Outcome (List Line)}
    (h : ∀ target out atLine, ∀ x ∈ (expandTarget target out atLine).reads, P x)
    (parentLine : BitVec 32) (lines : List (Line × ℕ)) (out : List Line) :
    ∀ x ∈ (IncludeResolver.expandLines expandTarget parentLine lines out).reads, P x := by
  induction lines generalizing out with
  | nil => exact List.forall_mem_nil _
  | cons line lines ih =>
    rw [IncludeResolver.expandLines]
    split
    · exact List.forall_mem_nil _
    · exact reads_bind _ _ _ (h _ _ _) (fun out _ ↦ ih out)
    · exact ih _

theorem expandInclude_reads (levels : ℕ) (chain : List String) (target : String)
    (out : List Line) (atLine : BitVec 32) :
    ∀ x ∈ (r.expandInclude levels chain target out atLine).reads, Admitted r x := by
  induction levels generalizing chain target out atLine with
  | zero =>
    rw [IncludeResolver.expandInclude]
    exact reads_bind _ _ _ (List.forall_mem_nil _) (fun _ _ ↦ List.forall_mem_nil _)
  | succ levels ih =>
    rw [IncludeResolver.expandInclude]
    refine reads_bind _ _ _ (List.forall_mem_nil _) (fun _ hcheck ↦ ?_)
    dsimp only
    split
    · exact List.forall_mem_nil _
    refine reads_bind _ _ _ (List.forall_mem_singleton.mpr ⟨rfl, atLine, hcheck⟩) (fun _ _ ↦ ?_)
    split
    · exact List.forall_mem_nil _
    · exact reads_bind _ _ _ (List.forall_mem_nil _)
        (fun child _ ↦ expandLines_reads (fun target out atLine ↦ ih _ target out atLine) _ _ _)

theorem resolve_reads (r : IncludeResolver) (rootPath : String) :
    ∀ x ∈ (r.resolve rootPath).reads, Admitted r x := by
  unfold IncludeResolver.resolve
  split
  · exact List.forall_mem_nil _
  refine reads_bind _ _ _ (List.forall_mem_nil _) (fun root _ ↦ ?_)
  refine reads_bind _ _ _ (expandLines_reads (fun target out atLine ↦ ?_) _ _ _)
    (fun _ _ ↦ List.forall_mem_nil _)
  exact expandInclude_reads _ _ target out atLine

end Reads

/-- In every run, whatever it reads and however it ends, the paths that are read for `exec` are
relative to the config root exactly when no target is disguised. -/
theorem reads_relative_iff (r : IncludeResolver) (rootPath : String) :
    (∀ x ∈ (r.resolve rootPath).reads, Relative x.path) ↔
      ∀ x ∈ (r.resolve rootPath).reads, ¬Disguised x.target := by
  refine forall₂_congr (fun x hx ↦ ?_)
  obtain ⟨hpath, atLine, hcheck⟩ := resolve_reads r rootPath x hx
  rw [hpath]
  exact relative_normalizeOwned r hcheck

def hostile : IncludeResolver where
  read path := if path = "server.cfg" then some "exec .//etc/passwd\n" else none
  isAbsolute path := path.toList.head? == some '/'
  environment _ := none
  opts := ⟨.enabled, false⟩

theorem hostile_reads_absolute :
    (hostile.resolve "server.cfg").reads = [⟨".//etc/passwd", "/etc/passwd"⟩] ∧
      ¬Relative "/etc/passwd" := by
  refine ⟨by decide +kernel, fun h ↦ ?_⟩
  cases h.1

end Aldivine.Config.Confinement
