import Aldivine.Files.Directories
import Aldivine.Foundation.Text

namespace Aldivine.Transfers.Resolving

open Foundation.Text Foundation.Pieces Files.Directories
open Files.Model (Component components)

def searchDirs (configured : String) : List String :=
  [configured, "base-resources", "../../base-resources"]

/-- What the lexical check refuses: a component that is empty or `..`, between separators of
either kind. -/
def traverses (rel : String) : Bool :=
  (rel.toList.splitOnP (fun c ↦ c == '/' || c == '\\')).any (fun c ↦ c == ['.', '.'] || c.isEmpty)

/-- The body of the loop over the search directories; paths are compared by their components. -/
def resolveIn (fs : Tree) (root rel : String) : Option String :=
  let candidate := join root rel
  let canonical := (fs.canonicalize candidate).getD candidate
  let rootCanon := (fs.canonicalize root).getD root
  if (components candidate = components canonical ∨
      components rootCanon <+: components canonical) ∧ fs.isFileAt canonical = true then
    some canonical
  else none

def resolveFile (fs : Tree) (name configured : String) : Except String String :=
  match splitOnce '/' name with
  | none => .error ("bad transfer name '" ++ name ++ "'")
  | some (resource, rel) =>
    if isBlank resource || isBlank rel then .error ("bad transfer name '" ++ name ++ "'")
    else if traverses rel then .error ("traversal refused for '" ++ name ++ "'")
    else
      match (searchDirs configured).findSome?
          (fun base ↦ resolveIn fs (join base resource) rel) with
      | some path => .ok path
      | none => .error ("file '" ++ name ++ "' not served")

/-- What is resolved lies in the directory of a resource: one that a search directory has under a
name of its own. -/
def Contained (fs : Tree) (configured name : String) : Prop :=
  ∀ path, resolveFile fs name configured = .ok path →
    ∃ base ∈ searchDirs configured, ∃ resource, ValidName resource ∧
      ∃ dir file, fs.lookup (join base resource) = some dir ∧ fs.isDir dir = true ∧
        fs.lookup path = some file ∧ dir <+: file

/-- The resource is not `.` or `..`, unless the rest cannot name a file anyway. -/
def Confined (name : String) : Prop :=
  ∀ resource rel, splitOnce '/' name = some (resource, rel) → isBlank rel = false →
    traverses rel = false → '\x00' ∉ rel.toList → (parts rel).getLast? ≠ some ['.'] →
      resource ≠ "." ∧ resource ≠ ".."

variable {fs : Tree} {name configured resource root rel path : String} {dir target : Place}

section Names

theorem parts_of_not_traverses (h : traverses rel = false) :
    ∀ part ∈ parts rel, part ≠ [] ∧ part ≠ ['.', '.'] := by
  intro part hpart
  have hpieces := splitOnP_or (· == '/') (· == '\\') rel.toList
  have hmem (hsplit : part.splitOnP (· == '\\') = [part]) :
      part ∈ rel.toList.splitOnP (fun c ↦ c == '/' || c == '\\') := by
    rw [hpieces, List.mem_flatMap]
    exact ⟨part, hpart, hsplit ▸ List.mem_singleton_self part⟩
  have hnone := List.any_eq_false.mp h part
  constructor
  · rintro rfl
    exact hnone (hmem rfl) rfl
  · rintro rfl
    exact hnone (hmem rfl) rfl

theorem not_absolute_of_not_traverses (h : traverses rel = false) : isAbsolute rel = false := by
  by_contra habsolute
  obtain ⟨l, hl⟩ : ∃ l, rel.toList = '/' :: l := by
    simpa [isAbsolute, List.head?_eq_some_iff] using habsolute
  have hfirst : [] ∈ parts rel := by
    rw [parts, hl, show '/' :: l = [] ++ '/' :: l from rfl, List.splitOn_append_cons_self]
    exact List.mem_append_left _ (List.mem_singleton_self _)
  exact (parts_of_not_traverses h [] hfirst).1 rfl

theorem resolveFile_eq_ok :
    resolveFile fs name configured = .ok path ↔
      ∃ resource rel, splitOnce '/' name = some (resource, rel) ∧ isBlank resource = false ∧
        isBlank rel = false ∧ traverses rel = false ∧
        (searchDirs configured).findSome? (fun base ↦ resolveIn fs (join base resource) rel) =
          some path := by
  unfold resolveFile
  cases hsplit : splitOnce '/' name with
  | none => simp
  | some halves =>
    obtain ⟨resource, rel⟩ := halves
    simp only [Option.some.injEq, Prod.mk.injEq]
    constructor
    · intro h
      split at h
      · cases h
      split at h
      · cases h
      split at h
      · rename_i hblank htraverses _ _ hfound
        cases h
        rw [Bool.not_eq_true, Bool.or_eq_false_iff] at hblank
        exact ⟨resource, rel, ⟨rfl, rfl⟩, hblank.1, hblank.2, by simpa using htraverses, hfound⟩
      · cases h
    · rintro ⟨_, _, ⟨rfl, rfl⟩, hresource, hrel, htraverses, hfound⟩
      rw [hresource, hrel, htraverses]
      simp only [Bool.or_self, Bool.false_eq_true, if_false, hfound]

end Names

section Sound

theorem resolveIn_eq_some (hroot : root ≠ "") (hrel : isAbsolute rel = false)
    (h : resolveIn fs root rel = some path) :
    ∃ dir target, fs.lookup root = some dir ∧ fs.isDir dir = true ∧ '\x00' ∉ rel.toList ∧
      fs.walk dir (parts rel) = some target ∧ fs.isFile target = true ∧
      fs.lookup path = some target ∧ dir <+: target := by
  unfold resolveIn at h
  dsimp only at h
  split at h
  · rename_i hcheck
    obtain ⟨hcheck, hfile⟩ := hcheck
    obtain rfl := Option.some.inj h
    cases hlookup : fs.lookup (join root rel) with
    | none =>
      -- without a canonical path the candidate stands in, and it is no file
      rw [Tree.canonicalize, hlookup, Option.map_none, Option.getD_none, Tree.isFileAt,
        hlookup] at hfile
      cases hfile
    | some target =>
      have hreal := lookup_real hlookup
      have hcanonical := canonicalize_of_lookup hlookup
      have hback := lookup_placeText hreal
      obtain ⟨hnul, dir, hdir, his, hwalk⟩ := (lookup_join hroot hrel).mp hlookup
      have hdirCanonical := canonicalize_of_lookup hdir
      rw [hcanonical, Option.getD_some, Tree.isFileAt, hback, Option.any_some] at hfile
      rw [hcanonical, hdirCanonical, Option.getD_some, Option.getD_some] at hcheck
      refine ⟨dir, target, hdir, his, hnul, hwalk, hfile, ?_, ?_⟩
      · rw [hcanonical, Option.getD_some]
        exact hback
      · rcases hcheck with hsame | hbelow
        · exact lookup_le_of_components hroot hrel hdir hreal hsame
        · exact (components_le_iff (lookup_real hdir) hreal).mp hbelow
  · cases h

theorem resolveIn_of_lookup (hroot : fs.lookup root = some dir)
    (htarget : fs.lookup (join root rel) = some target) (hfile : fs.isFile target = true)
    (hbelow : dir <+: target) : resolveIn fs root rel = some (placeText target) := by
  have hreal := lookup_real htarget
  have hcanonical := canonicalize_of_lookup htarget
  have hrootCanonical := canonicalize_of_lookup hroot
  have hisFile : fs.isFileAt (placeText target) = true := by
    rw [Tree.isFileAt, lookup_placeText hreal, Option.any_some, hfile]
  rw [resolveIn, hcanonical, hrootCanonical]
  exact if_pos ⟨.inr ((components_le_iff (lookup_real hroot) hreal).mpr hbelow), hisFile⟩

theorem isDir_of_last_dot {rest : List (List Char)} (hlast : rest.getLast? = some ['.'])
    (h : fs.walk dir rest = some target) : fs.isDir target = true := by
  obtain ⟨init, rfl⟩ := List.getLast?_eq_some_iff.mp hlast
  rw [Tree.walk_append] at h
  obtain ⟨next, -, hdot⟩ := Option.bind_eq_some_iff.mp h
  have his := isDir_of_walk (List.cons_ne_nil _ _) hdot
  rw [walk_skip his rfl] at hdot
  obtain rfl := Option.some.inj hdot
  exact his

theorem contained_of_confined (fs : Tree) (configured : String) (h : Confined name) :
    Contained fs configured name := by
  intro path hok
  obtain ⟨resource, rel, hsplit, hresource, hrel, htraverses, hfound⟩ := resolveFile_eq_ok.mp hok
  obtain ⟨base, hbase, hin⟩ := List.exists_of_findSome?_eq_some hfound
  have hne := ne_empty_of_not_blank hresource
  obtain ⟨dir, file, hdir, his, hnul, hwalk, hfile, hpath, hbelow⟩ :=
    resolveIn_eq_some (join_ne_empty hne base) (not_absolute_of_not_traverses htraverses) hin
  have hlast : (parts rel).getLast? ≠ some ['.'] := by
    intro hlast
    have hdirectory := isDir_of_last_dot hlast hwalk
    rw [fs.file_not_dir file hfile] at hdirectory
    cases hdirectory
  obtain ⟨hdot, hdots⟩ := h resource rel hsplit hrel htraverses hnul hlast
  have hslash := not_mem_splitOnce hsplit
  have hnul' : '\x00' ∉ resource.toList := by
    intro hmem
    refine (lookup_eq_some.mp hdir).2.1 ((mem_join (by decide) (not_absolute hslash)).mpr ?_)
    exact .inr hmem
  have hnormal : Component.ofPart resource.toList = some (.normal resource) := by
    rw [ofPart_eq_normal, String.ofList_toList]
    · exact String.toList_eq_nil_iff.not.mpr hne
    · exact fun heq ↦ hdot (String.toList_inj.mp heq)
    · exact fun heq ↦ hdots (String.toList_inj.mp heq)
  exact ⟨base, hbase, resource, ⟨hnormal, hslash, hnul'⟩, dir, file, hdir, his, hpath, hbelow⟩

end Sound

section Escapes

structure Unmet (away : Place) (last name : String) : Prop where
  valid : ValidName name
  fresh : (away ++ [last]).head? ≠ some name

variable {home : Option String} {away : Place} {last secret : String}

/-- A tree where every name is a directory, but for one link to a file right below the root. From
the working directory, if that is not the root, every name is a link to the root. -/
def trap (home : Option String) (away : Place) (last secret : String)
    (hsecret : Unmet away last secret) (hhome : ∀ c ∈ home, Unmet away last c) : Tree where
  cwd := home.toList
  isDir place := place ≠ [secret]
  isFile place := place = [secret]
  entry dir name :=
    if dir = away ∧ name = last then some [secret]
    else if dir ≠ [] ∧ dir = home.toList then some []
    else some (dir ++ [name])
  read _ := .ok []
  missing text := text
  root_dir := by simp
  cwd_real := by
    cases home with
    | none => exact .root
    | some c =>
      refine @Real.child _ _ [] c .root (by simp) (hhome c rfl).valid ?_
      rw [if_neg, if_neg (fun h ↦ h.1 rfl)]
      rintro ⟨rfl, rfl⟩
      exact (hhome c rfl).fresh rfl
  entry_real dir name place hdir his hname hentry := by
    split at hentry
    · obtain rfl := Option.some.inj hentry
      refine @Real.child _ _ [] secret .root (by simp) hsecret.valid ?_
      rw [if_neg, if_neg (fun h ↦ h.1 rfl)]
      rintro ⟨rfl, rfl⟩
      exact hsecret.fresh rfl
    · rename_i hother
      split at hentry
      · obtain rfl := Option.some.inj hentry
        exact .root
      · rename_i haway
        obtain rfl := Option.some.inj hentry
        exact .child hdir his hname (by rw [if_neg hother, if_neg haway])
  file_not_dir place hfile := by simpa using hfile

variable {hsecret : Unmet away last secret} {hhome : ∀ c ∈ home, Unmet away last c}

theorem trap_entry {dir place : Place} {name : String}
    (h : (trap home away last secret hsecret hhome).entry dir name = some place) :
    place = [secret] ∨ (place = [] ∧ ∃ c ∈ home, dir = [c]) ∨
      (place = dir ++ [name] ∧ ∀ c ∈ home, dir ≠ [c]) := by
  unfold trap at h
  dsimp only at h
  split at h
  · exact .inl (Option.some.inj h).symm
  · split at h
    · rename_i hhere
      refine .inr (.inl ⟨(Option.some.inj h).symm, ?_⟩)
      cases home with
      | none => exact absurd hhere.2 hhere.1
      | some c => exact ⟨c, rfl, hhere.2⟩
    · rename_i hhere
      refine .inr (.inr ⟨(Option.some.inj h).symm, ?_⟩)
      rintro c rfl rfl
      exact hhere ⟨List.cons_ne_nil _ _, rfl⟩

def namesOf (rest : List (List Char)) : List String :=
  (rest.filter (· ≠ ['.'])).map String.ofList

theorem unmet_of_fresh {init : List (List Char)} {part : List Char} {name : String}
    (hvalid : ValidName name) (hfresh : name.toList ∉ init ++ [part]) :
    Unmet (namesOf init) (String.ofList part) name := by
  refine ⟨hvalid, fun hhead ↦ hfresh ?_⟩
  rcases List.mem_append.mp (List.mem_of_mem_head? hhead) with hmem | hmem
  · obtain ⟨text, htext, rfl⟩ := List.mem_map.mp hmem
    rw [String.toList_ofList]
    exact List.mem_append_left _ (List.mem_filter.mp htext).1
  · rw [List.mem_singleton.mp hmem, String.toList_ofList]
    exact List.mem_append_right _ (List.mem_singleton_self part)

theorem trap_walk {rest : List (List Char)} {place : Place}
    (hrest : ∀ part ∈ rest, part ≠ [] ∧ part ≠ ['.', '.']) (haway : place ++ namesOf rest = away) :
    (trap home away last secret hsecret hhome).walk place rest = some away := by
  induction rest generalizing place with
  | nil => exact congrArg some ((List.append_nil place).symm.trans haway)
  | cons part rest ih =>
    obtain ⟨hpart, hmore⟩ := List.forall_mem_cons.mp hrest
    have hmeets {c : String} (hplace : place = [c]) : (away ++ [last]).head? = some c := by
      rw [← haway, hplace]
      rfl
    have his : (trap home away last secret hsecret hhome).isDir place = true :=
      decide_eq_true (fun heq ↦ hsecret.fresh (hmeets heq))
    by_cases hdot : part = ['.']
    · have hsame : namesOf (part :: rest) = namesOf rest := by simp [namesOf, hdot]
      rw [walk_skip his (by rw [hdot]; rfl)]
      exact ih hmore (hsame ▸ haway)
    · have hnames : namesOf (part :: rest) = String.ofList part :: namesOf rest := by
        simp [namesOf, hdot]
      rw [hnames] at haway
      have hentry : (trap home away last secret hsecret hhome).entry place (String.ofList part) =
          some (place ++ [String.ofList part]) := by
        unfold trap
        dsimp only
        rw [if_neg, if_neg]
        · rintro ⟨hne, hplace⟩
          cases home with
          | none => exact hne hplace
          | some c => exact (hhome c rfl).fresh (hmeets hplace)
        · rintro ⟨heq, -⟩
          have hlen := congrArg List.length haway
          rw [← heq, List.length_append, List.length_cons] at hlen
          omega
      rw [walk_name his (ofPart_eq_normal hpart.1 hdot hpart.2) hentry]
      exact ih hmore (by rw [List.append_assoc]; exact haway)

theorem trap_leaves {c : String} {rest : List (List Char)} {place target : Place}
    (hhome : ∀ c' ∈ some c, Unmet away last c') (hne : secret ≠ c)
    (hrest : ∀ part ∈ rest, part ≠ c.toList) (hplace : place = [c] ∨ place.head? ≠ some c)
    (hnamed : place.head? = some c →
      ∃ part ∈ rest, ∃ name, Component.ofPart part = some (.normal name))
    (h : (trap (some c) away last secret hsecret hhome).walk place rest = some target) :
    target.head? ≠ some c := by
  induction rest generalizing place with
  | nil =>
    obtain rfl := Option.some.inj h
    intro hhead
    obtain ⟨part, hpart, -⟩ := hnamed hhead
    cases hpart
  | cons part rest ih =>
    obtain ⟨hpart, hmore⟩ := List.forall_mem_cons.mp hrest
    obtain ⟨-, ⟨hcomponent, h⟩ | ⟨hcomponent, h⟩ | ⟨name, next, hcomponent, hentry, h⟩⟩ :=
      walk_cons h
    · refine ih hmore hplace (fun hhead ↦ ?_) h
      obtain ⟨named, hmem, name, hname⟩ := hnamed hhead
      rcases List.mem_cons.mp hmem with rfl | hmem
      · cases hcomponent.symm.trans hname
      · exact ⟨named, hmem, name, hname⟩
    · have hup : place.dropLast.head? ≠ some c := by
        intro hhead
        rcases hplace with rfl | hplace
        · cases hhead
        · obtain ⟨l, hl⟩ := List.head?_eq_some_iff.mp hhead
          obtain ⟨l', hl'⟩ := List.dropLast_prefix place
          rw [hl] at hl'
          exact hplace (by rw [← hl']; rfl)
      exact ih hmore (.inr hup) (fun hhead ↦ absurd hhead hup) h
    · have haway : next.head? ≠ some c := by
        rcases trap_entry hentry with rfl | ⟨rfl, -⟩ | ⟨rfl, hhere⟩
        · exact fun hhead ↦ hne (Option.some.inj hhead)
        · rintro ⟨⟩
        · have hout := hplace.resolve_left (hhere c rfl)
          cases place with
          | nil =>
            intro hhead
            obtain rfl := Option.some.inj hhead
            exact hpart (ofPart_toList hcomponent).symm
          | cons first place => exact hout
      exact ih hmore (.inr haway) (fun hhead ↦ absurd hhead haway) h

theorem trap_outside {base resource : String} {dir : Place} (hresource : ValidName resource)
    (hbase : ∀ c ∈ home,
      base ≠ "" ∧ (trap home away last secret hsecret hhome).lookup base ≠ some [c])
    (hdir : (trap home away last secret hsecret hhome).lookup (join base resource) = some dir)
    (his : (trap home away last secret hsecret hhome).isDir dir = true) : ¬dir <+: [secret] := by
  obtain ⟨above, habove, hentry⟩ := lookup_child hresource hdir
  have hne : dir ≠ [] := by
    rcases trap_entry hentry with rfl | ⟨-, c, hc, rfl⟩ | ⟨rfl, -⟩
    · exact List.cons_ne_nil _ _
    · exact absurd (habove (hbase c hc).1) (hbase c hc).2
    · exact List.concat_ne_nil _ _
  intro hle
  rcases List.prefix_cons_iff.mp hle with rfl | ⟨rest, rfl, hrest⟩
  · exact hne rfl
  · rw [List.prefix_nil.mp hrest] at his
    exact absurd rfl (of_decide_eq_true his)

theorem walk_dots (hdots : resource = "." ∨ resource = "..") :
    fs.walk [] (parts resource) = some [] := by
  rcases hdots with rfl | rfl
  · exact walk_skip fs.root_dir rfl
  · exact walk_parent fs.root_dir rfl

theorem exists_fresh (taken : List (List Char)) : ∃ name, ValidName name ∧ name.toList ∉ taken := by
  refine ⟨String.ofList (List.replicate (taken.flatten.length + 1) 'x'), ⟨?_, ?_, ?_⟩, ?_⟩
  · rw [String.toList_ofList]
    exact ofPart_eq_normal (by simp) (by simp [List.replicate_succ]) (by simp [List.replicate_succ])
  · simp
  · simp
  · rw [String.toList_ofList]
    intro hmem
    have hle := (List.sublist_flatten_of_mem hmem).length_le
    rw [List.length_replicate] at hle
    omega

theorem trap_target {init : List (List Char)} {part : List Char}
    (hinit : ∀ part ∈ init, part ≠ [] ∧ part ≠ ['.', '.'])
    (hpart : part ≠ [] ∧ part ≠ ['.', '.']) (hdot : part ≠ ['.'])
    {hsecret : Unmet (namesOf init) (String.ofList part) secret}
    {hhome : ∀ c ∈ home, Unmet (namesOf init) (String.ofList part) c} :
    (trap home (namesOf init) (String.ofList part) secret hsecret hhome).walk [] (init ++ [part]) =
      some [secret] := by
  have hdir : (trap home (namesOf init) (String.ofList part) secret hsecret hhome).isDir
      (namesOf init) = true := by
    refine decide_eq_true (fun heq ↦ hsecret.fresh ?_)
    rw [heq]
    rfl
  rw [Tree.walk_append, trap_walk hinit (List.nil_append _), Option.bind_some,
    walk_name hdir (ofPart_eq_normal hpart.1 hdot hpart.2) (if_pos ⟨rfl, rfl⟩)]
  rfl

theorem trap_escapes {base : String} (hbase : base ∈ searchDirs configured)
    (hsplit : splitOnce '/' name = some (resource, rel)) (hresource : isBlank resource = false)
    (hrel : isBlank rel = false) (htraverses : traverses rel = false) (hnul : '\x00' ∉ rel.toList)
    (hroot : (trap home away last secret hsecret hhome).lookup (join base resource) = some [])
    (htarget : (trap home away last secret hsecret hhome).walk [] (parts rel) = some [secret])
    (hsafe : ∀ base ∈ searchDirs configured, ∀ c ∈ home,
      base ≠ "" ∧ (trap home away last secret hsecret hhome).lookup base ≠ some [c]) :
    ¬Contained (trap home away last secret hsecret hhome) configured name := by
  have hne := ne_empty_of_not_blank hresource
  have hrelative := not_absolute_of_not_traverses htraverses
  have hin := resolveIn_of_lookup hroot
    ((lookup_join (join_ne_empty hne base) hrelative).mpr
      ⟨hnul, [], hroot, Tree.root_dir _, htarget⟩) (decide_eq_true rfl) List.nil_prefix
  obtain ⟨path, hfound⟩ : ∃ path, (searchDirs configured).findSome? (fun base ↦
      resolveIn (trap home away last secret hsecret hhome) (join base resource) rel) =
        some path := by
    refine Option.isSome_iff_exists.mp (List.findSome?_isSome_iff.mpr ⟨base, hbase, ?_⟩)
    rw [hin]
    rfl
  -- whichever search directory is the first, there is one file only
  obtain ⟨first, -, hfirst⟩ := List.exists_of_findSome?_eq_some hfound
  obtain ⟨-, target, -, -, -, -, hfile, hpath, -⟩ := resolveIn_eq_some
    (join_ne_empty hne first) hrelative hfirst
  intro hcontained
  obtain ⟨other, hother, child, hchild, dir, file, hdir, his, hsame, hbelow⟩ :=
    hcontained path (resolveFile_eq_ok.mpr
      ⟨resource, rel, hsplit, hresource, hrel, htraverses, hfound⟩)
  obtain rfl := Option.some.inj (hpath.symm.trans hsame)
  rw [of_decide_eq_true hfile] at hbelow
  exact trap_outside hchild (hsafe other hother) hdir his hbelow

/-- A working directory that no search directory meets again leaves the file of the trap outside. -/
theorem trap_safe {c : String} (hhome : ∀ c' ∈ some c, Unmet away last c') (hne : secret ≠ c)
    {base : String} (hfresh : c.toList ∉ parts base)
    (hnamed : ∃ part ∈ parts base, ∃ name, Component.ofPart part = some (.normal name)) :
    base ≠ "" ∧ (trap (some c) away last secret hsecret hhome).lookup base ≠ some [c] := by
  constructor
  · rintro rfl
    obtain ⟨part, hpart, name, hname⟩ := hnamed
    obtain rfl : part = [] := List.mem_singleton.mp hpart
    cases hname
  · intro hlookup
    obtain ⟨-, -, hwalk⟩ := lookup_eq_some.mp hlookup
    refine trap_leaves hhome hne (fun part hpart heq ↦ hfresh (heq ▸ hpart)) ?_
      (fun _ ↦ hnamed) hwalk rfl
    rw [Tree.start]
    split
    · exact .inr (by simp)
    · exact .inl rfl

theorem dots_relative (hdots : resource = "." ∨ resource = "..") :
    isAbsolute resource = false ∧ '\x00' ∉ resource.toList := by
  rcases hdots with rfl | rfl <;> decide

theorem trap_base {c : String} (hhome : ∀ c' ∈ some c, Unmet away last c') (hne : secret ≠ c)
    (hdots : resource = "." ∨ resource = "..") :
    (trap (some c) away last secret hsecret hhome).lookup (join "base-resources" resource) =
      some [] := by
  have hdir : (trap (some c) away last secret hsecret hhome).isDir [c] = true := by
    refine decide_eq_true (fun heq ↦ hne ?_)
    exact (List.singleton_inj.mp heq).symm
  have hentry : (trap (some c) away last secret hsecret hhome).entry [c] "base-resources" =
      some [] := by
    unfold trap
    dsimp only
    rw [if_neg, if_pos ⟨List.cons_ne_nil _ _, rfl⟩]
    rintro ⟨rfl, -⟩
    exact (hhome c rfl).fresh rfl
  obtain ⟨hrelative, hvisible⟩ := dots_relative hdots
  have hbase : (trap (some c) away last secret hsecret hhome).lookup "base-resources" = some [] :=
    lookup_eq_some.mpr ⟨by decide, by decide, walk_name hdir rfl hentry⟩
  exact (lookup_join (by decide) hrelative).mpr
    ⟨hvisible, [], hbase, Tree.root_dir _, walk_dots hdots⟩

theorem lookup_nameless (hcwd : fs.cwd = []) (hdots : resource = "." ∨ resource = "..")
    (hnameless : ∀ part ∈ parts configured, ∀ name,
      Component.ofPart part ≠ some (.normal name)) :
    fs.lookup (join configured resource) = some [] := by
  have hstart (text : String) : fs.start text = [] := by
    rw [Tree.start, hcwd]
    exact ite_self []
  obtain ⟨hrelative, hvisible⟩ := dots_relative hdots
  by_cases hempty : configured = ""
  · rw [hempty, join_relative hrelative, if_pos (.inl rfl), String.empty_append]
    refine lookup_eq_some.mpr ⟨?_, hvisible, ?_⟩
    · rcases hdots with rfl | rfl <;> decide
    · rw [hstart]
      exact walk_dots hdots
  · have hconfigured : fs.lookup configured = some [] := by
      refine lookup_eq_some.mpr ⟨hempty, nul_not_mem_of_nameless hnameless, ?_⟩
      rw [hstart]
      exact walk_nameless hnameless
    exact (lookup_join hempty hrelative).mpr
      ⟨hvisible, [], hconfigured, fs.root_dir, walk_dots hdots⟩

/-- Behind `.` or `..` every name that can name a file leads out of the resources, in some tree. -/
theorem exists_escape (configured : String) (hsplit : splitOnce '/' name = some (resource, rel))
    (hdots : resource = "." ∨ resource = "..") (hrel : isBlank rel = false)
    (htraverses : traverses rel = false) (hnul : '\x00' ∉ rel.toList)
    (hlast : (parts rel).getLast? ≠ some ['.']) : ∃ fs, ¬Contained fs configured name := by
  have hclean := parts_of_not_traverses htraverses
  have hresource : isBlank resource = false := by rcases hdots with rfl | rfl <;> decide
  obtain ⟨init, part, hparts⟩ : ∃ init part, parts rel = init ++ [part] :=
    ⟨_, _, (List.dropLast_append_getLast (List.splitOn_ne_nil '/' rel.toList)).symm⟩
  have hdot : part ≠ ['.'] := by
    rintro rfl
    rw [hparts, List.getLast?_concat] at hlast
    exact hlast rfl
  rw [hparts, List.forall_mem_append, List.forall_mem_singleton] at hclean
  obtain ⟨hinit, hpart⟩ := hclean
  obtain ⟨secret, hvalid, hfresh⟩ := exists_fresh (parts rel)
  have hsecret := unmet_of_fresh hvalid (hparts ▸ hfresh)
  by_cases hnamed : ∃ part ∈ parts configured, ∃ name, Component.ofPart part = some (.normal name)
  · -- no search directory is a working directory whose name is in none of them
    obtain ⟨c, hc, hfreshC⟩ :=
      exists_fresh (secret.toList :: (parts rel ++ (searchDirs configured).flatMap parts))
    rw [List.mem_cons, List.mem_append, List.mem_flatMap, not_or, not_or] at hfreshC
    obtain ⟨hother, hfreshRel, hfreshBase⟩ := hfreshC
    have hne : secret ≠ c := by
      rintro rfl
      exact hother rfl
    have hhome : ∀ c' ∈ some c, Unmet (namesOf init) (String.ofList part) c' := by
      rintro _ ⟨⟩
      exact unmet_of_fresh hc (hparts ▸ hfreshRel)
    let fs := trap (some c) (namesOf init) (String.ofList part) secret hsecret hhome
    have hroot : fs.lookup (join "base-resources" resource) = some [] := trap_base hhome hne hdots
    have htarget : fs.walk [] (parts rel) = some [secret] := by
      rw [hparts]
      exact trap_target hinit hpart hdot
    refine ⟨fs, trap_escapes (by simp [searchDirs]) hsplit hresource hrel htraverses hnul hroot
      htarget (fun base hbase c' hc' ↦ ?_)⟩
    obtain rfl := Option.some.inj hc'
    refine trap_safe hhome hne (fun hmem ↦ hfreshBase ⟨base, hbase, hmem⟩) ?_
    rcases List.mem_cons.mp hbase with rfl | hbase
    · exact hnamed
    · have hfixed : ∀ base ∈ ["base-resources", "../../base-resources"],
          ["base-resources".toList] <:+ parts base := by decide
      exact ⟨_, (hfixed base hbase).subset (List.mem_singleton_self _), _, rfl⟩
  · have hnameless : ∀ part ∈ parts configured, ∀ name,
        Component.ofPart part ≠ some (.normal name) :=
      fun part hmem name hname ↦ hnamed ⟨part, hmem, name, hname⟩
    have hhome : ∀ c ∈ none, Unmet (namesOf init) (String.ofList part) c := by
      rintro c ⟨⟩
    let fs := trap none (namesOf init) (String.ofList part) secret hsecret hhome
    have htarget : fs.walk [] (parts rel) = some [secret] := by
      rw [hparts]
      exact trap_target hinit hpart hdot
    refine ⟨fs, trap_escapes List.mem_cons_self hsplit hresource hrel htraverses hnul
      (lookup_nameless rfl hdots hnameless) htarget ?_⟩
    rintro base - c ⟨⟩

end Escapes

/-- A name is served from inside the resources in every tree exactly when its first component is a
name, whatever the configured directory. -/
theorem contained_iff_confined (name configured : String) :
    (∀ fs, Contained fs configured name) ↔ Confined name := by
  constructor
  · intro hall resource rel hsplit hrel htraverses hnul hlast
    by_contra hnot
    rw [not_and_or, not_not, not_not] at hnot
    obtain ⟨fs, hescape⟩ := exists_escape configured hsplit hnot hrel htraverses hnul hlast
    exact hescape (hall fs)
  · intro h fs
    exact contained_of_confined fs configured h

def serverDirs : List Place := [["srv"], ["srv", "resources"], ["srv", "resources", "demo"]]

theorem serverDirs_real (contents : Place → Option (List UInt8)) :
    Real (fun place ↦ place = [] ∨ place ∈ serverDirs)
      (fun dir name ↦ if dir ++ [name] ∈ serverDirs ∨ (contents (dir ++ [name])).isSome then
        some (dir ++ [name]) else none) ["srv"] :=
  .child .root (by decide) (by decide) (if_pos (.inl (by decide)))

def server (contents : Place → Option (List UInt8)) : Tree :=
  plain serverDirs contents ["srv"] (serverDirs_real contents)

def beside : Tree :=
  server (fun place ↦ if place = ["srv", "secret.txt"] then some [107, 101, 121] else none)

theorem secret_escapes :
    resolveFile beside "../secret.txt" "resources" = .ok "/srv/secret.txt" ∧
      ¬Contained beside "resources" "../secret.txt" := by
  have hresolved : resolveFile beside "../secret.txt" "resources" = .ok "/srv/secret.txt" := by
    decide +kernel
  refine ⟨hresolved, fun hcontained ↦ ?_⟩
  obtain ⟨base, hbase, resource, hresource, dir, file, hdir, his, hfile, hbelow⟩ :=
    hcontained _ hresolved
  have hsecret : beside.lookup "/srv/secret.txt" = some ["srv", "secret.txt"] := by decide
  obtain rfl := Option.some.inj (hsecret.symm.trans hfile)
  have hne : base ≠ "" := by
    rintro rfl
    revert hbase
    decide
  obtain ⟨above, habove, hentry⟩ := lookup_child hresource hdir
  have hplaces : ∀ base ∈ searchDirs "resources", ∀ above ∈ beside.lookup base,
      above.length = 2 := by decide
  have hlength := hplaces base hbase above (habove hne)
  obtain rfl := plain_entry hentry
  have hle := hbelow.length_le
  simp [hlength] at hle

end Aldivine.Transfers.Resolving
