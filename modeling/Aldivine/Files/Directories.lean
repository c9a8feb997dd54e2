import Aldivine.Files.Model
import Aldivine.Foundation.Pieces

namespace Aldivine.Files.Directories

open Foundation.Pieces Model

/-- The place of a file or directory: the names that lead to it from the root, none of them a
link. -/
abbrev Place := List String

def ValidName (name : String) : Prop :=
  Component.ofPart name.toList = some (.normal name) ∧ '/' ∉ name.toList ∧ '\x00' ∉ name.toList

instance (name : String) : Decidable (ValidName name) := inferInstanceAs (Decidable (_ ∧ _ ∧ _))

inductive Real (isDir : Place → Bool) (entry : Place → String → Option Place) : Place → Prop
  | root : Real isDir entry []
  | child {dir : Place} {name : String} (hdir : Real isDir entry dir) (his : isDir dir = true)
      (hname : ValidName name) (hentry : entry dir name = some (dir ++ [name])) :
      Real isDir entry (dir ++ [name])

/-- A directory tree with links: a name in a directory leads to the place where the links end. -/
structure Tree where
  cwd : Place
  isDir : Place → Bool
  isFile : Place → Bool
  entry : Place → String → Option Place
  read : Place → Except String (List UInt8)
  missing : String → String
  root_dir : isDir [] = true
  cwd_real : Real isDir entry cwd
  entry_real : ∀ dir name place, Real isDir entry dir → isDir dir = true → ValidName name →
    entry dir name = some place → Real isDir entry place
  file_not_dir : ∀ place, isFile place = true → isDir place = false

def parts (text : String) : List (List Char) := text.toList.splitOn '/'

def isAbsolute (text : String) : Bool := text.toList.head? = some '/'

def join (root rel : String) : String :=
  if isAbsolute rel then rel
  else if root = "" ∨ root.toList.getLast? = some '/' then root ++ rel
  else root ++ "/" ++ rel

def placeText (place : Place) : String :=
  String.ofList ('/' :: ['/'].intercalate (place.map String.toList))

namespace Tree

def walk (fs : Tree) : Place → List (List Char) → Option Place
  | place, [] => some place
  | place, part :: rest =>
    if fs.isDir place then
      match Component.ofPart part with
      | none => fs.walk place rest
      | some .parentDir => fs.walk place.dropLast rest
      | some (.normal name) =>
        match fs.entry place name with
        | none => none
        | some next => fs.walk next rest
      | some _ => none
    else none

def start (fs : Tree) (text : String) : Place := if isAbsolute text then [] else fs.cwd

def lookup (fs : Tree) (text : String) : Option Place :=
  if text = "" ∨ '\x00' ∈ text.toList then none else fs.walk (fs.start text) (parts text)

def canonicalize (fs : Tree) (text : String) : Option String := (fs.lookup text).map placeText

def isFileAt (fs : Tree) (text : String) : Bool := (fs.lookup text).any fs.isFile

/-- `fs::read`, with the text of its error. -/
def readAt (fs : Tree) (text : String) : Except String (List UInt8) :=
  match fs.lookup text with
  | none => .error (fs.missing text)
  | some place => fs.read place

end Tree

variable {fs : Tree} {place dir : Place} {text root rel name : String}

section Places

variable {isDir : Place → Bool} {entry : Place → String → Option Place}

theorem Real.split (h : Real isDir entry (dir ++ [name])) :
    Real isDir entry dir ∧ isDir dir = true ∧ ValidName name ∧
      entry dir name = some (dir ++ [name]) := by
  generalize hplace : dir ++ [name] = place at h
  cases h with
  | root => exact absurd hplace (List.concat_ne_nil _ _)
  | child hdir his hname hentry =>
    obtain ⟨rfl, hlast⟩ := List.append_inj' hplace rfl
    obtain rfl := List.singleton_inj.mp hlast
    exact ⟨hdir, his, hname, hentry⟩

theorem Real.of_le (h : Real isDir entry place) (hle : dir <+: place) : Real isDir entry dir := by
  induction h with
  | root =>
    rw [List.prefix_nil.mp hle]
    exact .root
  | child hdir his hname hentry ih =>
    rcases List.prefix_concat_iff.mp hle with rfl | hle
    · exact .child hdir his hname hentry
    · exact ih hle

theorem Real.names (h : Real isDir entry place) : ∀ name ∈ place, ValidName name := by
  induction h with
  | root => exact List.forall_mem_nil _
  | child hdir his hname hentry ih =>
    rw [List.forall_mem_append, List.forall_mem_singleton]
    exact ⟨ih, hname⟩

theorem ofPart_eq_normal {part : List Char} (hempty : part ≠ []) (hdot : part ≠ ['.'])
    (hdots : part ≠ ['.', '.']) :
    Component.ofPart part = some (.normal (String.ofList part)) := by
  unfold Component.ofPart
  split <;> first | contradiction | rfl

theorem ofPart_toList {part : List Char} (hpart : Component.ofPart part = some (.normal name)) :
    name.toList = part := by
  unfold Component.ofPart at hpart
  split at hpart <;> try cases hpart
  exact String.toList_ofList

theorem ofPart_validName {part : List Char} (hpart : Component.ofPart part = some (.normal name))
    (hslash : '/' ∉ part) (hnul : '\x00' ∉ part) : ValidName name := by
  rw [ValidName, ofPart_toList hpart]
  exact ⟨hpart, hslash, hnul⟩

theorem ofPart_ne_rootDir (part : List Char) : Component.ofPart part ≠ some .rootDir := by
  unfold Component.ofPart
  split <;> simp

theorem ofPart_ne_curDir (part : List Char) : Component.ofPart part ≠ some .curDir := by
  unfold Component.ofPart
  split <;> simp

end Places

section Walks

theorem Tree.walk_append (fs : Tree) (place : Place) (first second : List (List Char)) :
    fs.walk place (first ++ second) =
      (fs.walk place first).bind (fun next ↦ fs.walk next second) := by
  induction first generalizing place with
  | nil => rfl
  | cons part first ih =>
    simp only [List.cons_append, Tree.walk]
    split
    · split
      · exact ih place
      · exact ih place.dropLast
      · split
        · rfl
        · rename_i next _
          exact ih next
      · rfl
    · rfl

theorem isDir_of_walk {rest : List (List Char)} {target : Place} (hrest : rest ≠ [])
    (h : fs.walk place rest = some target) : fs.isDir place = true := by
  cases rest with
  | nil => exact absurd rfl hrest
  | cons part rest =>
    rw [Tree.walk] at h
    split at h
    · assumption
    · cases h

theorem walk_skip {part : List Char} {rest : List (List Char)} (hdir : fs.isDir place = true)
    (hpart : Component.ofPart part = none) : fs.walk place (part :: rest) = fs.walk place rest := by
  simp only [Tree.walk, if_pos hdir, hpart]

theorem walk_parent {part : List Char} {rest : List (List Char)} (hdir : fs.isDir place = true)
    (hpart : Component.ofPart part = some .parentDir) :
    fs.walk place (part :: rest) = fs.walk place.dropLast rest := by
  simp only [Tree.walk, if_pos hdir, hpart]

theorem walk_name {part : List Char} {rest : List (List Char)} {next : Place}
    (hdir : fs.isDir place = true) (hpart : Component.ofPart part = some (.normal name))
    (hentry : fs.entry place name = some next) :
    fs.walk place (part :: rest) = fs.walk next rest := by
  simp only [Tree.walk, if_pos hdir, hpart, hentry]

theorem walk_cons {part : List Char} {rest : List (List Char)} {target : Place}
    (h : fs.walk place (part :: rest) = some target) :
    fs.isDir place = true ∧
      ((Component.ofPart part = none ∧ fs.walk place rest = some target) ∨
        (Component.ofPart part = some .parentDir ∧ fs.walk place.dropLast rest = some target) ∨
        ∃ name next, Component.ofPart part = some (.normal name) ∧
          fs.entry place name = some next ∧ fs.walk next rest = some target) := by
  rw [Tree.walk] at h
  split at h
  · rename_i hdir
    refine ⟨hdir, ?_⟩
    split at h
    · rename_i hpart
      exact .inl ⟨hpart, h⟩
    · rename_i hpart
      exact .inr (.inl ⟨hpart, h⟩)
    · rename_i name hpart
      split at h
      · cases h
      · rename_i next hentry
        exact .inr (.inr ⟨name, next, hpart, hentry, h⟩)
    · cases h
  · cases h

abbrev Tree.Real (fs : Tree) (place : Place) : Prop := Directories.Real fs.isDir fs.entry place

theorem real_dropLast (h : fs.Real place) : fs.Real place.dropLast :=
  h.of_le (List.dropLast_prefix place)

theorem walk_real {rest : List (List Char)} {target : Place} (hplace : fs.Real place)
    (hrest : ∀ part ∈ rest, '/' ∉ part ∧ '\x00' ∉ part) (h : fs.walk place rest = some target) :
    fs.Real target := by
  induction rest generalizing place with
  | nil =>
    obtain rfl := Option.some.inj h
    exact hplace
  | cons part rest ih =>
    obtain ⟨hpart, hrest⟩ := List.forall_mem_cons.mp hrest
    obtain ⟨hdir, ⟨-, h⟩ | ⟨-, h⟩ | ⟨name, next, hname, hentry, h⟩⟩ := walk_cons h
    · exact ih hplace hrest h
    · exact ih (real_dropLast hplace) hrest h
    · have hvalid := ofPart_validName hname hpart.1 hpart.2
      exact ih (fs.entry_real place name next hplace hdir hvalid hentry) hrest h

theorem parts_clean (hnul : '\x00' ∉ text.toList) :
    ∀ part ∈ parts text, '/' ∉ part ∧ '\x00' ∉ part := by
  intro part hpart
  refine ⟨not_mem_of_mem_splitOn hpart, ?_⟩
  intro hmem
  exact hnul (subset_of_mem_splitOn hpart hmem)

theorem lookup_eq_some {target : Place} :
    fs.lookup text = some target ↔
      text ≠ "" ∧ '\x00' ∉ text.toList ∧ fs.walk (fs.start text) (parts text) = some target := by
  unfold Tree.lookup
  split
  · rename_i h
    refine iff_of_false (by simp) ?_
    rintro ⟨htext, hnul, -⟩
    exact h.elim htext hnul
  · rename_i h
    rw [not_or] at h
    exact ⟨fun hwalk ↦ ⟨h.1, h.2, hwalk⟩, fun hwalk ↦ hwalk.2.2⟩

theorem start_real : fs.Real (fs.start text) := by
  unfold Tree.start
  split
  · exact .root
  · exact fs.cwd_real

theorem lookup_real {target : Place} (h : fs.lookup text = some target) : fs.Real target := by
  obtain ⟨-, hnul, hwalk⟩ := lookup_eq_some.mp h
  exact walk_real start_real (parts_clean hnul) hwalk

theorem canonicalize_of_lookup (h : fs.lookup text = some place) :
    fs.canonicalize text = some (placeText place) := by
  rw [Tree.canonicalize, h, Option.map_some]

theorem walk_nameless {rest : List (List Char)}
    (h : ∀ part ∈ rest, ∀ name, Component.ofPart part ≠ some (.normal name)) :
    fs.walk [] rest = some [] := by
  induction rest with
  | nil => rfl
  | cons part rest ih =>
    obtain ⟨hpart, hrest⟩ := List.forall_mem_cons.mp h
    cases hcomponent : Component.ofPart part with
    | none => exact (walk_skip fs.root_dir hcomponent).trans (ih hrest)
    | some component =>
      cases component with
      | parentDir => exact (walk_parent fs.root_dir hcomponent).trans (ih hrest)
      | normal name => exact absurd hcomponent (hpart name)
      | rootDir => exact absurd hcomponent (ofPart_ne_rootDir part)
      | curDir => exact absurd hcomponent (ofPart_ne_curDir part)

theorem nul_not_mem_of_nameless
    (h : ∀ part ∈ parts text, ∀ name, Component.ofPart part ≠ some (.normal name)) :
    '\x00' ∉ text.toList := by
  intro hmem
  rw [← @List.intercalate_splitOn _ text.toList _ _ '/'] at hmem
  obtain hslash | ⟨part, hpart, hnul⟩ := mem_intercalate hmem
  · exact absurd hslash (by decide)
  · refine h part hpart (String.ofList part) (ofPart_eq_normal ?_ ?_ ?_)
    · rintro rfl
      cases hnul
    · rintro rfl
      exact absurd hnul (by decide)
    · rintro rfl
      exact absurd hnul (by decide)

end Walks

section Texts

theorem parts_placeText (hnames : ∀ name ∈ place, ValidName name) :
    parts (placeText place) = [] :: if place = [] then [[]] else place.map String.toList := by
  have hsplit (l : List Char) : ('/' :: l).splitOn '/' = [] :: l.splitOn '/' :=
    List.splitOn_append_cons_self [] l
  rw [parts, placeText, String.toList_ofList, hsplit]
  split
  · rename_i hroot
    rw [hroot]
    rfl
  · rename_i hne
    rw [List.splitOn_intercalate]
    · intro part hpart
      obtain ⟨name, hname, rfl⟩ := List.mem_map.mp hpart
      exact (hnames name hname).2.1
    · simpa using hne

theorem lookup_placeText (h : fs.Real place) : fs.lookup (placeText place) = some place := by
  have hwalk : fs.walk [] (place.map String.toList) = some place := by
    induction h with
    | root => rfl
    | child hdir his hname hentry ih =>
      rw [List.map_append, Tree.walk_append, ih, Option.bind_some, List.map_singleton,
        walk_name his hname.1 hentry]
      rfl
  refine lookup_eq_some.mpr ⟨?_, ?_, ?_⟩
  · simp [placeText, ← String.toList_inj]
  · rw [placeText, String.toList_ofList, List.mem_cons, not_or]
    refine ⟨by decide, fun hmem ↦ ?_⟩
    obtain hslash | ⟨part, hpart, hmem⟩ := mem_intercalate hmem
    · exact absurd hslash (by decide)
    · obtain ⟨name, hname, rfl⟩ := List.mem_map.mp hpart
      exact (h.names name hname).2.2 hmem
  · have hstart : fs.start (placeText place) = [] := by
      simp [Tree.start, isAbsolute, placeText]
    rw [hstart, parts_placeText h.names, walk_skip fs.root_dir rfl]
    split
    · rename_i hroot
      rw [hroot, walk_skip fs.root_dir rfl]
      rfl
    · exact hwalk

theorem components_placeText (hnames : ∀ name ∈ place, ValidName name) :
    components (placeText place) = .rootDir :: place.map .normal := by
  have hfront : (placeText place).toList.head? = some '/' := by simp [placeText]
  have hparts : ((placeText place).toList.splitOn '/').filterMap Component.ofPart =
      place.map .normal := by
    have hnormal : (place.map String.toList).filterMap Component.ofPart = place.map .normal := by
      rw [List.filterMap_map]
      exact List.filterMap_eq_map_iff_forall_eq_some.mpr (fun name hname ↦ (hnames name hname).1)
    rw [← parts, parts_placeText hnames]
    split
    · rename_i hroot
      rw [hroot]
      rfl
    · exact hnormal
  rw [components, if_pos hfront, hparts]
  rfl

end Texts

section Joins

theorem join_relative (hrel : isAbsolute rel = false) :
    join root rel =
      if root = "" ∨ root.toList.getLast? = some '/' then root ++ rel else root ++ "/" ++ rel := by
  rw [join, hrel, if_neg Bool.false_ne_true]

theorem not_absolute (h : '/' ∉ text.toList) : isAbsolute text = false := by
  rw [isAbsolute, decide_eq_false_iff_not]
  exact fun hhead ↦ h (List.mem_of_mem_head? hhead)

theorem parts_join (hroot : root ≠ "") (hrel : isAbsolute rel = false) :
    ∃ first, first ≠ [] ∧ parts (join root rel) = first ++ parts rel ∧
      (parts root = first ∨ parts root = first ++ [[]]) := by
  rw [join_relative hrel]
  split
  · rename_i h
    obtain ⟨l, hl⟩ := List.getLast?_eq_some_iff.mp (h.resolve_left hroot)
    refine ⟨l.splitOn '/', List.splitOn_ne_nil _ _, ?_, .inr ?_⟩
    · rw [parts, String.toList_append, hl, List.append_assoc, List.singleton_append,
        List.splitOn_append_cons_self]
      rfl
    · rw [parts, hl, List.splitOn_append_cons_self, List.splitOn_nil]
  · refine ⟨parts root, List.splitOn_ne_nil _ _, ?_, .inl rfl⟩
    rw [parts, String.toList_append, String.toList_append, List.append_assoc]
    exact List.splitOn_append_cons_self _ _

theorem join_ne_empty (hrel : rel ≠ "") (root : String) : join root rel ≠ "" := by
  have hrel' : rel.toList ≠ [] := String.toList_eq_nil_iff.not.mpr hrel
  rw [ne_eq, ← String.toList_eq_nil_iff]
  unfold join
  split
  · exact hrel'
  · split <;> simp [String.toList_append, hrel]

theorem join_start (hroot : root ≠ "") (hrel : isAbsolute rel = false) :
    (join root rel).toList.head? = root.toList.head? := by
  obtain ⟨c, l, hl⟩ := List.exists_cons_of_ne_nil (String.toList_eq_nil_iff.not.mpr hroot)
  rw [join_relative hrel]
  split <;> simp [String.toList_append, hl]

theorem mem_join {c : Char} (hc : c ≠ '/') (hrel : isAbsolute rel = false) :
    c ∈ (join root rel).toList ↔ c ∈ root.toList ∨ c ∈ rel.toList := by
  rw [join_relative hrel]
  split <;> simp [String.toList_append, hc]

theorem lookup_join {target : Place} (hroot : root ≠ "") (hrel : isAbsolute rel = false) :
    fs.lookup (join root rel) = some target ↔ '\x00' ∉ rel.toList ∧
      ∃ dir, fs.lookup root = some dir ∧ fs.isDir dir = true ∧
        fs.walk dir (parts rel) = some target := by
  obtain ⟨first, -, hparts, hfirst⟩ := parts_join hroot hrel
  have hstart : fs.start (join root rel) = fs.start root := by
    rw [Tree.start, Tree.start, isAbsolute, isAbsolute, join_start hroot hrel]
  have hwalk (dir : Place) (hdir : fs.isDir dir = true) :
      fs.walk (fs.start root) (parts root) = some dir ↔
        fs.walk (fs.start root) first = some dir := by
    rcases hfirst with heq | heq
    · rw [heq]
    · rw [heq, Tree.walk_append, Option.bind_eq_some_iff]
      constructor
      · rintro ⟨next, hnext, hlast⟩
        have hsame := (walk_skip (isDir_of_walk (List.cons_ne_nil _ _) hlast) rfl).symm.trans hlast
        rw [hnext]
        exact hsame
      · intro hfound
        exact ⟨dir, hfound, walk_skip hdir rfl⟩
  have hne : join root rel ≠ "" := by
    intro hempty
    have hhead := join_start hroot hrel
    rw [hempty] at hhead
    exact hroot (String.toList_eq_nil_iff.mp (List.head?_eq_none_iff.mp hhead.symm))
  rw [lookup_eq_some, mem_join (by decide) hrel, hstart, hparts, Tree.walk_append,
    Option.bind_eq_some_iff, not_or]
  constructor
  · rintro ⟨-, ⟨hnul, hnul'⟩, dir, hdir, htarget⟩
    have his := isDir_of_walk (List.splitOn_ne_nil _ _) htarget
    exact ⟨hnul', dir, lookup_eq_some.mpr ⟨hroot, hnul, (hwalk dir his).mpr hdir⟩, his, htarget⟩
  · rintro ⟨hnul', dir, hdir, his, htarget⟩
    obtain ⟨-, hnul, hdir⟩ := lookup_eq_some.mp hdir
    exact ⟨hne, ⟨hnul, hnul'⟩, dir, (hwalk dir his).mp hdir, htarget⟩

theorem lookup_child (hname : ValidName name) (h : fs.lookup (join root name) = some place) :
    ∃ dir, (root ≠ "" → fs.lookup root = some dir) ∧ fs.entry dir name = some place := by
  have hrelative := not_absolute hname.2.1
  obtain ⟨dir, hdir, hwalk⟩ : ∃ dir, (root ≠ "" → fs.lookup root = some dir) ∧
      fs.walk dir (parts name) = some place := by
    by_cases hroot : root = ""
    · rw [hroot, join_relative hrelative, if_pos (.inl rfl), String.empty_append] at h
      exact ⟨_, fun hne ↦ absurd hroot hne, (lookup_eq_some.mp h).2.2⟩
    · obtain ⟨-, dir, hdir, -, hwalk⟩ := (lookup_join hroot hrelative).mp h
      exact ⟨dir, fun _ ↦ hdir, hwalk⟩
  have hparts : parts name = [name.toList] := List.splitOn_eq_singleton hname.2.1
  rw [hparts] at hwalk
  obtain ⟨-, ⟨hpart, -⟩ | ⟨hpart, -⟩ | ⟨name', next, hpart, hentry, hnext⟩⟩ := walk_cons hwalk
  · cases hpart.symm.trans hname.1
  · cases hpart.symm.trans hname.1
  · obtain rfl := Option.some.inj hnext
    obtain rfl := Component.normal.inj (Option.some.inj (hpart.symm.trans hname.1))
    exact ⟨dir, hdir, hentry⟩

theorem components_join (hroot : root ≠ "") (hrel : isAbsolute rel = false) :
    components (join root rel) = components root ++ (parts rel).filterMap Component.ofPart := by
  obtain ⟨first, hne, hparts, hfirst⟩ := parts_join hroot hrel
  obtain ⟨part, rest, rfl⟩ := List.exists_cons_of_ne_nil hne
  have hhead : ((join root rel).toList.splitOn '/').head? = (root.toList.splitOn '/').head? := by
    rw [← parts, ← parts, hparts]
    rcases hfirst with heq | heq <;> rw [heq] <;> rfl
  have hnormal : (parts root).filterMap Component.ofPart =
      (part :: rest).filterMap Component.ofPart := by
    rcases hfirst with heq | heq
    · rw [heq]
    · rw [heq, List.filterMap_append]
      exact List.append_nil _
  have hall : (parts (join root rel)).filterMap Component.ofPart =
      (parts root).filterMap Component.ofPart ++ (parts rel).filterMap Component.ofPart := by
    rw [hparts, List.filterMap_append, hnormal]
  simp only [components, join_start hroot hrel, hhead, List.append_assoc]
  exact congrArg _ hall

end Joins

section Containment

/-- A path without `..` whose names are those of a place stays on the way to this place. -/
theorem walk_along {rest : List (List Char)} {names : List String} {target : Place}
    (hnames : rest.filterMap Component.ofPart = names.map .normal)
    (hreal : fs.Real (place ++ names)) (h : fs.walk place rest = some target) :
    target = place ++ names := by
  induction rest generalizing place names with
  | nil =>
    obtain rfl : names = [] := by simpa using hnames
    rw [List.append_nil]
    exact (Option.some.inj h).symm
  | cons part rest ih =>
    obtain ⟨-, ⟨hpart, h⟩ | ⟨hpart, -⟩ | ⟨name, next, hpart, hentry, h⟩⟩ := walk_cons h
    · rw [List.filterMap_cons_none hpart] at hnames
      exact ih hnames hreal h
    · rw [List.filterMap_cons_some hpart] at hnames
      cases names <;> simp at hnames
    · rw [List.filterMap_cons_some hpart] at hnames
      cases names with
      | nil => cases hnames
      | cons first names =>
        obtain ⟨hfirst, hrest⟩ := List.cons_eq_cons.mp hnames
        obtain rfl := Component.normal.inj hfirst
        have hsplit : place ++ name :: names = place ++ [name] ++ names := by simp
        rw [hsplit] at hreal ⊢
        have hown := (hreal.of_le (List.prefix_append _ _)).split.2.2.2
        obtain rfl := Option.some.inj (hentry.symm.trans hown)
        exact ih hrest hreal h

/-- A path that is canonical as it stands goes through canonical directories. -/
theorem lookup_le_of_components {target : Place} (hroot : root ≠ "") (hrel : isAbsolute rel = false)
    (hdir : fs.lookup root = some dir) (hreal : fs.Real target)
    (h : components (join root rel) = components (placeText target)) : dir <+: target := by
  rw [components_join hroot hrel, components_placeText hreal.names] at h
  have hnot (texts : List (List Char)) : .rootDir ∉ texts.filterMap Component.ofPart := by
    intro hmem
    obtain ⟨part, -, hpart⟩ := List.mem_filterMap.mp hmem
    exact ofPart_ne_rootDir part hpart
  by_cases habsolute : root.toList.head? = some '/'
  · have hcomponents : components root =
        .rootDir :: (parts root).filterMap Component.ofPart := by
      rw [components, if_pos habsolute]
      rfl
    rw [hcomponents, List.cons_append, List.cons_inj_right] at h
    obtain ⟨names, more, rfl, hnames, -⟩ := List.map_eq_append_iff.mp h.symm
    obtain ⟨-, -, hwalk⟩ := lookup_eq_some.mp hdir
    have hstart : fs.start root = [] := if_pos (by simpa [isAbsolute] using habsolute)
    rw [hstart] at hwalk
    have hon : dir = [] ++ names :=
      walk_along hnames.symm (hreal.of_le (List.prefix_append names more)) hwalk
    rw [hon]
    exact List.prefix_append names more
  · have hfront : ∃ front, (front = [.curDir] ∨ front = []) ∧
        components root = front ++ (parts root).filterMap Component.ofPart := by
      rw [components, if_neg habsolute]
      split
      · exact ⟨_, .inl rfl, rfl⟩
      · exact ⟨_, .inr rfl, rfl⟩
    obtain ⟨front, rfl | rfl, hcomponents⟩ := hfront
    · rw [hcomponents] at h
      cases h
    · rw [hcomponents, List.nil_append, ← List.filterMap_append] at h
      exact absurd (h ▸ List.mem_cons_self) (hnot (parts root ++ parts rel))

theorem components_le_iff {target : Place} (hdir : fs.Real dir) (htarget : fs.Real target) :
    components (placeText dir) <+: components (placeText target) ↔ dir <+: target := by
  have hinjective : Function.Injective Component.normal := fun _ _ ↦ Component.normal.inj
  rw [components_placeText hdir.names, components_placeText htarget.names, List.cons_prefix_cons,
    List.prefix_map_iff_of_injective hinjective]
  exact and_iff_right rfl

end Containment

def plain (dirs : List Place) (contents : Place → Option (List UInt8)) (cwd : Place)
    (hcwd : Real (fun place ↦ place = [] ∨ place ∈ dirs)
      (fun dir name ↦ if dir ++ [name] ∈ dirs ∨ (contents (dir ++ [name])).isSome then
        some (dir ++ [name]) else none) cwd) : Tree where
  cwd := cwd
  isDir place := place = [] ∨ place ∈ dirs
  isFile place := (contents place).isSome ∧ ¬(place = [] ∨ place ∈ dirs)
  entry dir name :=
    if dir ++ [name] ∈ dirs ∨ (contents (dir ++ [name])).isSome then some (dir ++ [name]) else none
  read place := (contents place).elim (.error "Is a directory (os error 21)") .ok
  missing _ := "No such file or directory (os error 2)"
  root_dir := rfl
  cwd_real := hcwd
  entry_real dir name place hdir his hname hentry := by
    have hplace := hentry
    split at hplace
    · obtain rfl := Option.some.inj hplace
      exact .child hdir his hname hentry
    · cases hplace
  file_not_dir place hfile := by
    have hnot := (of_decide_eq_true hfile).2
    exact decide_eq_false hnot

theorem plain_entry {dirs : List Place} {contents : Place → Option (List UInt8)} {cwd : Place}
    {hcwd : Real (fun place ↦ place = [] ∨ place ∈ dirs)
      (fun dir name ↦ if dir ++ [name] ∈ dirs ∨ (contents (dir ++ [name])).isSome then
        some (dir ++ [name]) else none) cwd}
    (h : (plain dirs contents cwd hcwd).entry dir name = some place) : place = dir ++ [name] := by
  have hentry : (if dir ++ [name] ∈ dirs ∨ (contents (dir ++ [name])).isSome then
      some (dir ++ [name]) else none) = some place := h
  split at hentry
  · exact (Option.some.inj hentry).symm
  · cases hentry

end Aldivine.Files.Directories
