import Aldivine.Config.Includes
import Mathlib.Algebra.Order.Ring.Nat

namespace Aldivine.Config.Flattening

open Includes Includes.IncludeResolver Foundation.Fallible Parsing Syntax

section Tree

variable (r : IncludeResolver)

def child (target : String) : Option Document :=
  (r.read (normalizeOwned target)).bind
    (fun text ↦ (r.parse (normalizeOwned target) text).toOption)

def rootDocument (rootPath : String) : Option Document :=
  (r.read rootPath).bind (fun text ↦ (r.parse rootPath text).toOption)

/-- The documents of the exec tree, each with the files that lead to it. -/
inductive Reaches (rootPath : String) : List String → Document → Prop
  | root {doc : Document} (hdoc : rootDocument r rootPath = some doc) :
      Reaches rootPath [normalizeOwned rootPath] doc
  | exec {chain : List String} {doc doc' : Document} {line : Line} {target : String}
      (hdoc : Reaches rootPath chain doc) (hline : line ∈ doc.lines)
      (hexec : execTarget line = some (some target)) (hchild : child r target = some doc') :
      Reaches rootPath (chain ++ [normalizeOwned target]) doc'

/-- The target lies inside the root, as far as its spelling goes. -/
def Inside (target : String) : Prop :=
  target.toList.head?.any isSeparator = false ∧ r.isAbsolute target = false ∧
    ['.', '.'] ∉ target.toList.splitOnP isSeparator

/-- An `exec` of `target` in a file that `chain` leads to can be followed. -/
structure Follows (chain : List String) (target : String) : Prop where
  named : target ≠ ""
  inside : Inside r target
  acyclic : normalizeOwned target ∉ chain
  depth : chain.length < maxIncludeDepth
  present : (child r target).isSome = true

def TreeOk (rootPath : String) : Prop :=
  (rootDocument r rootPath).isSome = true ∧
    ∀ chain doc, Reaches r rootPath chain doc → ∀ line ∈ doc.lines, ∀ arg,
      execTarget line = some arg → ∃ target, arg = some target ∧ Follows r chain target

/-- The lines of the tree below, in order and without the `exec` lines. -/
inductive Flat : List Line → List Line → Prop
  | nil : Flat [] []
  | keep {line : Line} {rest out : List Line} (hline : execTarget line = none)
      (hrest : Flat rest out) : Flat (line :: rest) (line :: out)
  | exec {line : Line} {target : String} {doc : Document} {rest inner out : List Line}
      (hline : execTarget line = some (some target)) (hchild : child r target = some doc)
      (hinner : Flat doc.lines inner) (hrest : Flat rest out) : Flat (line :: rest) (inner ++ out)

end Tree

section Expanding

variable {α β : Type} {r : IncludeResolver} {rootPath target : String} {chain : List String}
  {lines out out' : List Line} {atLine parentLine : BitVec 32} {levels : ℕ}

theorem result_bind (x : Outcome α) (f : α → Outcome β) :
    (x >>= f).result = x.result >>= fun a ↦ (f a).result := by
  show (x.bind f).result = _
  unfold Outcome.bind
  split
  · rename_i a ha
    rw [ha]
    rfl
  · rename_i e he
    rw [he]
    rfl

theorem checkTarget_eq_ok :
    r.checkTarget target atLine = .ok () ↔ target ≠ "" ∧ Inside r target := by
  unfold checkTarget Inside
  split
  · exact iff_of_false (by rintro ⟨⟩) (fun h ↦ h.1 ‹_›)
  split
  · rename_i hout
    refine iff_of_false (by rintro ⟨⟩) (fun h ↦ ?_)
    simp [h.2.1, h.2.2.1] at hout
  rename_i hnamed hin
  rw [not_or, Bool.not_eq_true, Bool.not_eq_true] at hin
  split
  · rename_i hdots
    exact iff_of_false (by rintro ⟨⟩) (fun h ↦ h.2.2.2 (List.contains_iff_mem.mp hdots))
  · rename_i hdots
    exact iff_of_true rfl ⟨hnamed, hin.1, hin.2, List.contains_iff_mem.not.mp hdots⟩

theorem expandInclude_eq_ok :
    (r.expandInclude levels chain target out atLine).result = .ok out' ↔
      target ≠ "" ∧ Inside r target ∧ normalizeOwned target ∉ chain ∧
        ∃ rest doc, levels = rest + 1 ∧ child r target = some doc ∧
          (expandLines (r.expandInclude rest (chain ++ [normalizeOwned target])) atLine
            doc.lines.zipIdx out).result = .ok out' := by
  cases levels with
  | zero =>
    rw [expandInclude, result_bind, bind_eq_ok]
    refine iff_of_false ?_ ?_
    · rintro ⟨_, _, ⟨⟩⟩
    · rintro ⟨_, _, _, _, _, ⟨⟩, _⟩
  | succ levels =>
    rw [expandInclude, result_bind, bind_eq_ok]
    constructor
    · rintro ⟨⟨⟩, hcheck, h⟩
      obtain ⟨hnamed, hinside⟩ := checkTarget_eq_ok.mp hcheck
      dsimp only at h
      split at h
      · cases h
      rename_i hacyclic
      rw [result_bind, bind_eq_ok] at h
      obtain ⟨-, -, h⟩ := h
      split at h
      · cases h
      rename_i text hread
      rw [result_bind, bind_eq_ok] at h
      obtain ⟨doc, hparse, h⟩ := h
      refine ⟨hnamed, hinside, hacyclic, levels, doc, rfl, ?_, h⟩
      rw [child, hread]
      exact toOption_eq_some.mpr hparse
    · rintro ⟨hnamed, hinside, hacyclic, rest, doc, hrest, hchild, h⟩
      cases hrest
      obtain ⟨text, hread, hparse⟩ := Option.bind_eq_some_iff.mp hchild
      refine ⟨(), checkTarget_eq_ok.mpr ⟨hnamed, hinside⟩, ?_⟩
      dsimp only
      rw [if_neg hacyclic, result_bind, bind_eq_ok]
      refine ⟨(), rfl, ?_⟩
      rw [hread]
      dsimp only
      rw [result_bind, bind_eq_ok]
      exact ⟨doc, toOption_eq_some.mp hparse, h⟩

theorem expandLines_cons (f : String → List Line → BitVec 32 → Outcome (List Line)) (line : Line)
    (i : ℕ) (rest : List (Line × ℕ)) :
    (expandLines f parentLine ((line, i) :: rest) out).result = .ok out' ↔
      (execTarget line = none ∧
        (expandLines f parentLine rest (out ++ [line])).result = .ok out') ∨
      ∃ target mid, execTarget line = some (some target) ∧
        (f target out (BitVec.ofNat 32 i + 1)).result = .ok mid ∧
        (expandLines f parentLine rest mid).result = .ok out' := by
  rw [expandLines]
  cases hexec : execTarget line with
  | none => simp
  | some arg =>
    cases arg with
    | none =>
      refine iff_of_false (by rintro ⟨⟩) ?_
      rintro (⟨⟨⟩, -⟩ | ⟨_, _, ⟨⟩, -⟩)
    | some target =>
      dsimp only
      rw [result_bind, bind_eq_ok]
      simp

theorem resolve_eq_ok {doc : Document} :
    (r.resolve rootPath).result = .ok doc ↔
      ∃ root, rootDocument r rootPath = some root ∧ doc.source = rootPath ∧
        (expandLines (r.expandInclude (maxIncludeDepth - 1) [normalizeOwned rootPath]) 0
          root.lines.zipIdx []).result = .ok doc.lines := by
  unfold resolve rootDocument
  cases hread : r.read rootPath with
  | none =>
    refine iff_of_false (by rintro ⟨⟩) ?_
    rintro ⟨_, ⟨⟩, -⟩
  | some text =>
    dsimp only
    rw [result_bind, bind_eq_ok]
    simp only [Option.bind_some, toOption_eq_some]
    refine exists_congr (fun root ↦ and_congr_right (fun _ ↦ ?_))
    rw [result_bind, bind_eq_ok]
    constructor
    · rintro ⟨out, hout, ⟨⟩⟩
      exact ⟨rfl, hout⟩
    · rintro ⟨rfl, hout⟩
      exact ⟨doc.lines, hout, rfl⟩

theorem flat_of_expandLines {f : String → List Line → BitVec 32 → Outcome (List Line)}
    (hf : ∀ target out atLine out', (f target out atLine).result = .ok out' →
      ∃ doc inner, child r target = some doc ∧ out' = out ++ inner ∧ Flat r doc.lines inner)
    {lines : List (Line × ℕ)} (h : (expandLines f parentLine lines out).result = .ok out') :
    ∃ inner, out' = out ++ inner ∧ Flat r (lines.map (·.1)) inner := by
  induction lines generalizing out with
  | nil =>
    cases h
    exact ⟨[], (List.append_nil _).symm, .nil⟩
  | cons x lines ih =>
    rcases (expandLines_cons f _ _ _).mp h with ⟨hline, h⟩ | ⟨target, mid, hline, hinclude, h⟩
    · obtain ⟨inner, rfl, hflat⟩ := ih h
      exact ⟨x.1 :: inner, List.append_assoc .., .keep hline hflat⟩
    · obtain ⟨doc, inner, hchild, rfl, hinner⟩ := hf target _ _ _ hinclude
      obtain ⟨outer, rfl, houter⟩ := ih h
      exact ⟨inner ++ outer, List.append_assoc .., .exec hline hchild hinner houter⟩

theorem flat_of_expandInclude
    (h : (r.expandInclude levels chain target out atLine).result = .ok out') :
    ∃ doc inner, child r target = some doc ∧ out' = out ++ inner ∧ Flat r doc.lines inner := by
  induction levels generalizing chain target out atLine out' with
  | zero => obtain ⟨-, -, -, -, -, ⟨⟩, -⟩ := expandInclude_eq_ok.mp h
  | succ levels ih =>
    obtain ⟨-, -, -, rest, doc, hrest, hchild, hbelow⟩ := expandInclude_eq_ok.mp h
    cases hrest
    obtain ⟨inner, hout, hinner⟩ := flat_of_expandLines (fun _ _ _ _ h ↦ ih h) hbelow
    rw [List.zipIdx_map_fst] at hinner
    exact ⟨doc, inner, hchild, hout, hinner⟩

theorem expandLines_mem {f : String → List Line → BitVec 32 → Outcome (List Line)}
    {lines : List (Line × ℕ)} (h : (expandLines f parentLine lines out).result = .ok out')
    {x : Line × ℕ} (hx : x ∈ lines) {arg : Option String} (harg : execTarget x.1 = some arg) :
    ∃ target before atLine after, arg = some target ∧
      (f target before atLine).result = .ok after := by
  induction lines generalizing out with
  | nil => cases hx
  | cons y lines ih =>
    rcases (expandLines_cons f _ _ _).mp h with ⟨hline, h⟩ | ⟨target, mid, hline, hinclude, h⟩
    · rcases List.mem_cons.mp hx with rfl | hx
      · rw [hline] at harg
        cases harg
      · exact ih h hx
    · rcases List.mem_cons.mp hx with rfl | hx
      · rw [hline] at harg
        cases harg
        exact ⟨target, _, _, mid, rfl, hinclude⟩
      · exact ih h hx

theorem reaches_expands {doc : Document} (h : (r.resolve rootPath).result = .ok doc)
    {doc' : Document} (hreaches : Reaches r rootPath chain doc') :
    ∃ levels parentLine out out', chain.length + levels = maxIncludeDepth ∧
      (expandLines (r.expandInclude levels chain) parentLine doc'.lines.zipIdx out).result =
        .ok out' := by
  induction hreaches with
  | root hdoc =>
    obtain ⟨root, hroot, -, hexpand⟩ := resolve_eq_ok.mp h
    rw [hdoc] at hroot
    cases hroot
    exact ⟨maxIncludeDepth - 1, 0, [], doc.lines, rfl, hexpand⟩
  | @exec chain doc₁ doc₂ line target hdoc hline hexec hchild ih =>
    obtain ⟨levels, parentLine, out, out', hlevels, hexpand⟩ := ih
    obtain ⟨i, hi⟩ := List.getElem?_of_mem hline
    have hmem : (line, i) ∈ doc₁.lines.zipIdx := List.mk_mem_zipIdx_iff_getElem?.mpr hi
    obtain ⟨_, before, atLine, after, ⟨⟩, hinclude⟩ := expandLines_mem hexpand hmem hexec
    obtain ⟨-, -, -, rest, doc₃, rfl, hsame, hbelow⟩ := expandInclude_eq_ok.mp hinclude
    rw [hchild] at hsame
    cases hsame
    refine ⟨rest, atLine, before, after, ?_, hbelow⟩
    rw [List.length_append, List.length_singleton]
    omega

theorem treeOk_of_resolve {doc : Document} (h : (r.resolve rootPath).result = .ok doc) :
    TreeOk r rootPath := by
  obtain ⟨root, hroot, -⟩ := resolve_eq_ok.mp h
  refine ⟨by rw [hroot]; rfl, fun chain doc' hreaches line hline arg harg ↦ ?_⟩
  obtain ⟨levels, parentLine, out, out', hlevels, hexpand⟩ := reaches_expands h hreaches
  obtain ⟨i, hi⟩ := List.getElem?_of_mem hline
  have hmem : (line, i) ∈ doc'.lines.zipIdx := List.mk_mem_zipIdx_iff_getElem?.mpr hi
  obtain ⟨target, before, atLine, after, rfl, hinclude⟩ := expandLines_mem hexpand hmem harg
  obtain ⟨hnamed, hinside, hacyclic, rest, doc₃, rfl, hchild, -⟩ := expandInclude_eq_ok.mp hinclude
  exact ⟨target, rfl, hnamed, hinside, hacyclic, by omega, by rw [hchild]; rfl⟩

theorem expandLines_ok {f : String → List Line → BitVec 32 → Outcome (List Line)}
    {lines : List (Line × ℕ)}
    (hf : ∀ x ∈ lines, ∀ arg, execTarget x.1 = some arg → ∃ target, arg = some target ∧
      ∀ out atLine, ∃ out', (f target out atLine).result = .ok out') :
    ∃ out', (expandLines f parentLine lines out).result = .ok out' := by
  induction lines generalizing out with
  | nil => exact ⟨out, rfl⟩
  | cons x lines ih =>
    obtain ⟨hx, hlines⟩ := List.forall_mem_cons.mp hf
    cases harg : execTarget x.1 with
    | none =>
      obtain ⟨out', h⟩ := @ih (out ++ [x.1]) hlines
      exact ⟨out', (expandLines_cons f _ _ _).mpr (.inl ⟨harg, h⟩)⟩
    | some arg =>
      obtain ⟨target, rfl, htarget⟩ := hx arg harg
      obtain ⟨mid, hmid⟩ := htarget out (BitVec.ofNat 32 x.2 + 1)
      obtain ⟨out', h⟩ := @ih mid hlines
      exact ⟨out', (expandLines_cons f _ _ _).mpr (.inr ⟨target, mid, harg, hmid, h⟩)⟩

theorem expandInclude_ok (hok : TreeOk r rootPath) {doc : Document}
    (hreaches : Reaches r rootPath chain doc) (hlevels : chain.length + levels = maxIncludeDepth)
    {line : Line} (hline : line ∈ doc.lines) (hexec : execTarget line = some (some target)) :
    ∃ out', (r.expandInclude levels chain target out atLine).result = .ok out' := by
  induction levels generalizing chain doc line target out atLine with
  | zero =>
    obtain ⟨_, ⟨⟩, hfollows⟩ := hok.2 chain doc hreaches line hline _ hexec
    exact absurd hlevels (Nat.ne_of_lt hfollows.depth)
  | succ levels ih =>
    obtain ⟨_, ⟨⟩, hfollows⟩ := hok.2 chain doc hreaches line hline _ hexec
    obtain ⟨doc', hchild⟩ := Option.isSome_iff_exists.mp hfollows.present
    have hbelow := Reaches.exec hreaches hline hexec hchild
    have hlength : (chain ++ [normalizeOwned target]).length + levels = maxIncludeDepth := by
      rw [List.length_append, List.length_singleton]
      omega
    obtain ⟨out', h⟩ := @expandLines_ok out atLine
      (r.expandInclude levels (chain ++ [normalizeOwned target])) doc'.lines.zipIdx
      (fun x hx arg harg ↦ by
        have hmem := List.fst_mem_of_mem_zipIdx hx
        obtain ⟨target, rfl, -⟩ := hok.2 _ _ hbelow x.1 hmem arg harg
        exact ⟨target, rfl, fun out atLine ↦ ih hbelow hlength hmem harg⟩)
    exact ⟨out', expandInclude_eq_ok.mpr ⟨hfollows.named, hfollows.inside, hfollows.acyclic,
      levels, doc', rfl, hchild, h⟩⟩

theorem resolve_ok_iff (r : IncludeResolver) (rootPath : String) :
    (∃ doc, (r.resolve rootPath).result = .ok doc) ↔ TreeOk r rootPath := by
  constructor
  · rintro ⟨doc, h⟩
    exact treeOk_of_resolve h
  · intro hok
    obtain ⟨root, hroot⟩ := Option.isSome_iff_exists.mp hok.1
    have hreaches := Reaches.root hroot
    obtain ⟨out, h⟩ := @expandLines_ok [] 0
      (r.expandInclude (maxIncludeDepth - 1) [normalizeOwned rootPath]) root.lines.zipIdx
      (fun x hx arg harg ↦ by
        have hmem := List.fst_mem_of_mem_zipIdx hx
        obtain ⟨target, rfl, -⟩ := hok.2 _ _ hreaches x.1 hmem arg harg
        exact ⟨target, rfl, fun out atLine ↦ expandInclude_ok hok hreaches rfl hmem harg⟩)
    exact ⟨⟨rootPath, out⟩, resolve_eq_ok.mpr ⟨root, hroot, rfl, h⟩⟩

theorem flat_of_resolve {doc : Document} (h : (r.resolve rootPath).result = .ok doc) :
    ∃ root, rootDocument r rootPath = some root ∧ Flat r root.lines doc.lines := by
  obtain ⟨root, hroot, -, hexpand⟩ := resolve_eq_ok.mp h
  obtain ⟨inner, hinner, hflat⟩ := flat_of_expandLines (fun _ _ _ _ h ↦ flat_of_expandInclude h)
    hexpand
  rw [List.zipIdx_map_fst] at hflat
  rw [hinner]
  exact ⟨root, hroot, hflat⟩

end Expanding

section Numbering

variable (r : IncludeResolver)

def Numbered (lines : List Line) : Prop :=
  ∀ k line, lines[k]? = some line → line.lineNo.toNat = k + 1

inductive Single : List Line → Prop
  | line {line : Line} (hline : execTarget line = none) : Single [line]
  | exec {line : Line} {target : String} {doc : Document}
      (hline : execTarget line = some (some target)) (hchild : child r target = some doc)
      (hdoc : Single doc.lines) : Single [line]

/-- An `exec` stands on the first line only, and unless it is the only line, what it includes comes
to one line. -/
inductive Aligned : List Line → Prop
  | plain {lines : List Line} (hlines : ∀ line ∈ lines, execTarget line = none)
      (hlen : lines.length < 2 ^ 32) : Aligned lines
  | whole {line : Line} {target : String} {doc : Document}
      (hline : execTarget line = some (some target)) (hchild : child r target = some doc)
      (hdoc : Aligned doc.lines) : Aligned [line]
  | first {line : Line} {target : String} {doc : Document} {rest : List Line}
      (hline : execTarget line = some (some target)) (hchild : child r target = some doc)
      (hdoc : Single r doc.lines) (hrest : ∀ line ∈ rest, execTarget line = none)
      (hlen : rest.length + 1 < 2 ^ 32) : Aligned (line :: rest)

/-- A file as it was parsed: it has a line, and its lines count from one. -/
structure Parsed (lines : List Line) : Prop where
  ne_nil : lines ≠ []
  lineNo : ∀ k line, lines[k]? = some line → line.lineNo = BitVec.ofNat 32 k + 1

variable {r} {lines out : List Line}

theorem parseLine_lineNo {environment : String → Option String} {opts : ParseOptions}
    {lineNo : BitVec 32} {raw : List Char} {line : Line}
    (h : parseLine environment opts lineNo raw = .ok line) : line.lineNo = lineNo := by
  unfold parseLine at h
  dsimp only at h
  split at h
  · cases h
    rfl
  split at h
  · cases h
    rfl
  obtain ⟨verb, -, h⟩ := bind_eq_ok.mp h
  split at h
  · cases h
    rfl
  split at h
  · cases h
  obtain ⟨args, -, h⟩ := bind_eq_ok.mp h
  cases h
  rfl

theorem parsed_of_parse {source text : String} {doc : Document}
    (h : r.parse source text = .ok doc) : Parsed doc.lines := by
  obtain ⟨lines, hlines, hdoc⟩ := bind_eq_ok.mp h
  cases hdoc
  have hall := mapM_eq_ok.mp hlines
  have hlength : lines.length = (segments text.toList).length := by
    rw [← hall.length_eq, List.length_zipIdx]
  refine ⟨fun hnil ↦ segments_ne_nil text.toList ?_, fun k line hline ↦ ?_⟩
  · rw [← List.length_eq_zero_iff, ← hlength, show lines = [] from hnil, List.length_nil]
  · obtain ⟨hk, rfl⟩ := List.getElem?_eq_some_iff.mp hline
    have hget := List.Forall₂.get hall (by rw [List.length_zipIdx, ← hlength]; exact hk) hk
    simp only [List.get_eq_getElem, List.getElem_zipIdx, Nat.zero_add] at hget
    exact parseLine_lineNo hget

theorem parsed_child {target : String} {doc : Document} (h : child r target = some doc) :
    Parsed doc.lines := by
  obtain ⟨text, -, hparse⟩ := Option.bind_eq_some_iff.mp h
  exact parsed_of_parse (toOption_eq_some.mp hparse)

theorem Flat.exec_inv {line : Line} {target : String} {doc : Document}
    (h : Flat r (line :: lines) out) (hline : execTarget line = some (some target))
    (hchild : child r target = some doc) :
    ∃ inner after, out = inner ++ after ∧ Flat r doc.lines inner ∧ Flat r lines after := by
  cases h with
  | keep hline' =>
    rw [hline] at hline'
    cases hline'
  | exec hline' hchild' hinner hrest =>
    rw [hline] at hline'
    cases hline'
    rw [hchild] at hchild'
    cases hchild'
    exact ⟨_, _, rfl, hinner, hrest⟩

theorem Flat.unique {out' : List Line} (h : Flat r lines out) (h' : Flat r lines out') :
    out = out' := by
  induction h generalizing out' with
  | nil =>
    cases h'
    rfl
  | keep hline hrest ih =>
    cases h' with
    | keep _ hrest' => rw [ih hrest']
    | exec hline' =>
      rw [hline] at hline'
      cases hline'
  | exec hline hchild hinner hrest ihInner ih =>
    obtain ⟨inner', after', rfl, hinner', hrest'⟩ := h'.exec_inv hline hchild
    rw [ihInner hinner', ih hrest']

theorem Flat.eq_of_plain (h : Flat r lines out) (hlines : ∀ line ∈ lines, execTarget line = none) :
    out = lines := by
  induction h with
  | nil => rfl
  | keep hline hrest ih => rw [ih (List.forall_mem_cons.mp hlines).2]
  | exec hline hchild hinner hrest =>
    rw [(List.forall_mem_cons.mp hlines).1] at hline
    cases hline

theorem Flat.head (h : Flat r lines out) (hparsed : Parsed lines) :
    ∃ line rest, out = line :: rest ∧ line.lineNo = 1 := by
  induction h with
  | nil => exact absurd rfl hparsed.ne_nil
  | keep hline hrest => exact ⟨_, _, rfl, hparsed.lineNo 0 _ rfl⟩
  | exec hline hchild hinner hrest ihInner =>
    obtain ⟨line, rest, rfl, hone⟩ := ihInner (parsed_child hchild)
    exact ⟨line, _, rfl, hone⟩

theorem Flat.plain_of_ne_one (h : Flat r lines out) (hout : ∀ line ∈ out, line.lineNo ≠ 1) :
    ∀ line ∈ lines, execTarget line = none := by
  induction h with
  | nil => exact List.forall_mem_nil _
  | keep hline hrest ih =>
    exact List.forall_mem_cons.mpr ⟨hline, ih (List.forall_mem_cons.mp hout).2⟩
  | exec hline hchild hinner hrest =>
    obtain ⟨line, rest, rfl, hone⟩ := hinner.head (parsed_child hchild)
    exact absurd hone (hout line List.mem_cons_self)

theorem Flat.lines_eq_nil (h : Flat r lines out) (hout : out = []) : lines = [] := by
  cases h with
  | nil => rfl
  | keep => cases hout
  | exec hline hchild hinner hrest =>
    obtain ⟨line, rest, rfl, -⟩ := hinner.head (parsed_child hchild)
    cases hout

theorem Flat.single (h : Flat r lines out) (hone : out.length = 1) : Single r lines := by
  induction h with
  | nil => cases hone
  | keep hline hrest =>
    rw [List.length_cons, Nat.succ_inj, List.length_eq_zero_iff] at hone
    rw [hrest.lines_eq_nil hone]
    exact .line hline
  | exec hline hchild hinner hrest ihInner =>
    obtain ⟨line, rest, rfl, -⟩ := hinner.head (parsed_child hchild)
    rw [List.length_append, List.length_cons] at hone
    rw [hrest.lines_eq_nil (List.length_eq_zero_iff.mp (by omega))]
    exact .exec hline hchild (ihInner (by rw [List.length_cons]; omega))

theorem Single.flat (hsingle : Single r lines) (h : Flat r lines out) : out.length = 1 := by
  induction hsingle generalizing out with
  | line hline =>
    cases h with
    | keep _ hrest =>
      cases hrest
      rfl
    | exec hline' =>
      rw [hline] at hline'
      cases hline'
  | exec hline hchild hdoc ih =>
    obtain ⟨inner, after, rfl, hinner, hrest⟩ := h.exec_inv hline hchild
    cases hrest
    rw [List.append_nil]
    exact ih hinner

theorem Numbered.length_lt (h : Numbered lines) : lines.length < 2 ^ 32 := by
  by_contra hlen
  have hlast : 2 ^ 32 - 1 < lines.length := by omega
  have hno := h (2 ^ 32 - 1) _ (List.getElem?_eq_getElem hlast)
  have hlt := (lines[2 ^ 32 - 1]).lineNo.isLt
  omega

theorem Numbered.tail_ne_one {before after : List Line} (h : Numbered (before ++ after))
    (hne : before ≠ []) : ∀ line ∈ after, line.lineNo ≠ 1 := by
  intro line hline hone
  obtain ⟨k, hk⟩ := List.getElem?_of_mem hline
  have hno := h (before.length + k) line (by
    rw [List.getElem?_append_right (Nat.le_add_right _ _), Nat.add_sub_cancel_left, hk])
  rw [hone] at hno
  have hpos := List.length_pos_iff.mpr hne
  have hval : (1 : BitVec 32).toNat = 1 := rfl
  omega

theorem Parsed.toNat_lineNo (h : Parsed lines) {k : ℕ} {line : Line} (hk : lines[k]? = some line)
    (hlt : k + 1 < 2 ^ 32) : line.lineNo.toNat = k + 1 := by
  rw [h.lineNo k line hk, BitVec.toNat_add, BitVec.toNat_ofNat]
  have hval : (1 : BitVec 32).toNat = 1 := rfl
  omega

theorem aligned_of_numbered (h : Flat r lines out) (hparsed : Parsed lines)
    (hnumbered : Numbered out) : Aligned r lines := by
  induction h with
  | nil => exact absurd rfl hparsed.ne_nil
  | @keep line rest out hline hrest =>
    have hafter : ∀ l ∈ out, l.lineNo ≠ 1 :=
      @Numbered.tail_ne_one [line] out hnumbered (List.cons_ne_nil _ _)
    have hplain := hrest.plain_of_ne_one hafter
    have hlen := hnumbered.length_lt
    rw [hrest.eq_of_plain hplain] at hlen
    exact .plain (List.forall_mem_cons.mpr ⟨hline, hplain⟩) hlen
  | @exec line target doc rest inner out hline hchild hinner hrest ihInner =>
    obtain ⟨first, others, hfirst, -⟩ := hinner.head (parsed_child hchild)
    have hne : inner ≠ [] := hfirst ▸ List.cons_ne_nil _ _
    have hplain := hrest.plain_of_ne_one (hnumbered.tail_ne_one hne)
    obtain rfl := hrest.eq_of_plain hplain
    cases out with
    | nil =>
      rw [List.append_nil] at hnumbered
      exact .whole hline hchild (ihInner (parsed_child hchild) hnumbered)
    | cons second rest =>
      -- the second line of the file must be the second of all
      have hplace := hnumbered inner.length second (by
        rw [List.getElem?_append_right le_rfl, Nat.sub_self]
        rfl)
      have htwo := @Parsed.toNat_lineNo _ hparsed 1 second rfl (by decide)
      have hlen := hnumbered.length_lt
      rw [List.length_append] at hlen
      exact .first hline hchild (hinner.single (by omega)) hplain (by omega)

theorem numbered_of_aligned (haligned : Aligned r lines) (h : Flat r lines out)
    (hparsed : Parsed lines) : Numbered out := by
  induction haligned generalizing out with
  | plain hlines hlen =>
    rw [h.eq_of_plain hlines]
    intro k line hk
    have hlt := (List.getElem?_eq_some_iff.mp hk).1
    exact hparsed.toNat_lineNo hk (by omega)
  | whole hline hchild hdoc ih =>
    obtain ⟨inner, after, rfl, hinner, hrest⟩ := h.exec_inv hline hchild
    cases hrest
    rw [List.append_nil]
    exact ih hinner (parsed_child hchild)
  | first hline hchild hdoc hplain hlen =>
    obtain ⟨inner, after, rfl, hinner, hrest⟩ := h.exec_inv hline hchild
    obtain ⟨first, others, rfl, hone⟩ := hinner.head (parsed_child hchild)
    have hothers : others = [] := by
      simpa using hdoc.flat hinner
    rw [hrest.eq_of_plain hplain, hothers]
    intro k line hk
    cases k with
    | zero =>
      cases hk
      rw [hone]
      rfl
    | succ k =>
      have hlt := (List.getElem?_eq_some_iff.mp hk).1
      rw [List.singleton_append, List.length_cons] at hlt
      exact hparsed.toNat_lineNo hk (by omega)

/-- A resolution succeeds exactly where the tree has no fault, with the flattened lines, and numbers
these by their place. -/
def Documented (r : IncludeResolver) (rootPath : String) : Prop :=
  ((∃ doc, (r.resolve rootPath).result = .ok doc) ↔ TreeOk r rootPath) ∧
    ∀ doc, (r.resolve rootPath).result = .ok doc →
      (∃ root, rootDocument r rootPath = some root ∧
        ∀ out, Flat r root.lines out ↔ out = doc.lines) ∧
      Numbered doc.lines

/-- All is as documented exactly when the tree has a fault or its files are aligned. -/
theorem resolve_documented_iff (r : IncludeResolver) (rootPath : String) :
    Documented r rootPath ↔
      (TreeOk r rootPath → ∀ root, rootDocument r rootPath = some root → Aligned r root.lines) := by
  have hparsed (root : Document) (hroot : rootDocument r rootPath = some root) :
      Parsed root.lines := by
    obtain ⟨text, -, hparse⟩ := Option.bind_eq_some_iff.mp hroot
    exact parsed_of_parse (toOption_eq_some.mp hparse)
  constructor
  · intro h hok root hroot
    obtain ⟨doc, hdoc⟩ := h.1.mpr hok
    obtain ⟨root', hroot', hflat⟩ := flat_of_resolve hdoc
    rw [hroot] at hroot'
    cases hroot'
    exact aligned_of_numbered hflat (hparsed root hroot) (h.2 doc hdoc).2
  · intro haligned
    refine ⟨resolve_ok_iff r rootPath, fun doc hdoc ↦ ?_⟩
    obtain ⟨root, hroot, hflat⟩ := flat_of_resolve hdoc
    refine ⟨⟨root, hroot, fun out ↦ ⟨fun h ↦ h.unique hflat, fun h ↦ h ▸ hflat⟩⟩, ?_⟩
    exact numbered_of_aligned (haligned (treeOk_of_resolve hdoc) root hroot) hflat
      (hparsed root hroot)

def nested : IncludeResolver where
  read path :=
    if path = "server.cfg" then some "set a 1\nexec b.cfg\nset c 3\n"
    else if path = "b.cfg" then some "set b 2\n" else none
  isAbsolute path := path.toList.head? == some '/'
  environment _ := none
  opts := ⟨.enabled, false⟩

theorem nested_numbered_per_file :
    (nested.resolve "server.cfg").result.toOption.map (fun doc ↦ doc.lines.map (·.lineNo)) =
        some [1, 1, 3] ∧
      ¬Documented nested "server.cfg" := by
  have hnumbers : (nested.resolve "server.cfg").result.toOption.map
      (fun doc ↦ doc.lines.map (·.lineNo)) = some [1, 1, 3] := by decide +kernel
  refine ⟨hnumbers, fun h ↦ ?_⟩
  obtain ⟨doc, hdoc, hlines⟩ := Option.map_eq_some_iff.mp hnumbers
  have hnumbered := (h.2 doc (toOption_eq_some.mp hdoc)).2
  have hsecond : (doc.lines.map (·.lineNo))[1]? = some 1 := by
    rw [hlines]
    rfl
  rw [List.getElem?_map, Option.map_eq_some_iff] at hsecond
  obtain ⟨line, hline, hone⟩ := hsecond
  have htwo := hnumbered 1 line hline
  rw [hone] at htwo
  cases htwo

end Numbering

end Aldivine.Config.Flattening
