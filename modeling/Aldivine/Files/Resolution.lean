import Aldivine.Files.Directories
import Aldivine.Files.Model
import Aldivine.Foundation.Fallible
import Aldivine.Foundation.Pieces
import Mathlib.Data.List.Induction

namespace Aldivine.Files.Resolution

open Foundation.Fallible Foundation.Pieces Model

variable {vfs : Vfs} {virtualPath caller raw rel : String} {root path target : Path}

/-- What `canonicalize` returns on POSIX: the names that lead from the root to the file. -/
def Absolute (fs : FileSystem) : Prop :=
  ∀ p c, fs.canonicalize p = .ok c → ∃ names : List String, c = .rootDir :: names.map .normal

/-- The values of the type are those that its functions make; its field is private. -/
inductive Built : Vfs → Prop
  | new : Built .new
  | mounted {vfs vfs' : Vfs} {fs : FileSystem} {resource : String} {root : Path} {writable : Bool}
      (hvfs : Built vfs) (hfs : Absolute fs) (h : vfs.mount fs resource root writable = .ok vfs') :
      Built vfs'
  | shared {vfs vfs' : Vfs} {resource other : String} (hvfs : Built vfs)
      (h : vfs.share resource other = .ok vfs') : Built vfs'

/-- The parts of a relative path, between separators of either kind. -/
def partsOf (raw : String) : List (List Char) :=
  (raw.toList.map (fun c ↦ if c = '\\' then '/' else c)).splitOn '/'

def Plain (raw : String) (c : Component) : Prop :=
  ∃ name, c = .normal name ∧ name.toList ∈ partsOf raw ∧ '\x00' ∉ name.toList ∧
    ':' ∉ name.toList ∧ isReservedDeviceName name = false

/-- What is resolved is the root of a mount that the caller may use, and plain names of the path
behind it. A `.` is left in front where the root is empty. -/
def Confined (vfs : Vfs) (virtualPath caller : String) (path : Path) : Prop :=
  ∃ resource raw mount, splitVirtual virtualPath = .ok (resource, raw) ∧
    vfs.mounts resource = some mount ∧ (caller = resource ∨ caller ∈ mount.sharedWith) ∧
      (∃ rest, path = mount.root ++ rest ∧
        ∀ c ∈ rest, c = .curDir ∧ mount.root = [] ∨ Plain raw c) ∧
      mount.root <+: normalizeLexical path

section Normalization

def Settled (path : Path) : Prop :=
  ∃ names : List String, path = names.map .normal ∨ path = .rootDir :: names.map .normal

theorem settled_dropLast (h : Settled path) : Settled path.dropLast := by
  obtain ⟨names, rfl | rfl⟩ := h
  · exact ⟨names.dropLast, .inl (List.map_dropLast ..).symm⟩
  · cases names with
    | nil => exact ⟨[], .inl rfl⟩
    | cons name names =>
      refine ⟨(name :: names).dropLast, .inr ?_⟩
      rw [List.map_dropLast]
      rfl

theorem settled_normalizeComponent (h : Settled path) (c : Component) :
    Settled (normalizeComponent path c) := by
  cases c with
  | rootDir => exact ⟨[], .inr rfl⟩
  | curDir => exact h
  | parentDir =>
    change Settled (pop path)
    unfold pop
    split
    · exact h
    · exact settled_dropLast h
  | normal name =>
    obtain ⟨names, rfl | rfl⟩ := h
    · exact ⟨names ++ [name], .inl (by rw [List.map_append]; rfl)⟩
    · exact ⟨names ++ [name], .inr (by rw [List.map_append]; rfl)⟩

theorem settled_normalizeLexical (path : Path) : Settled (normalizeLexical path) := by
  unfold normalizeLexical
  induction path using List.reverseRecOn with
  | nil => exact ⟨[], .inl rfl⟩
  | append_singleton path c ih =>
    rw [List.foldl_append]
    exact settled_normalizeComponent ih c

theorem foldl_normal (names : List String) (out : Path) :
    (names.map Component.normal).foldl normalizeComponent out = out ++ names.map .normal := by
  induction names generalizing out with
  | nil => exact (List.append_nil out).symm
  | cons name names ih =>
    rw [List.map_cons, List.foldl_cons, ih, normalizeComponent, List.append_assoc]
    rfl

theorem normalizeLexical_settled (h : Settled path) : normalizeLexical path = path := by
  unfold normalizeLexical
  obtain ⟨names, rfl | rfl⟩ := h
  · exact foldl_normal names []
  · rw [List.foldl_cons, normalizeComponent, foldl_normal]
    rfl

theorem prefix_normalizeLexical {rest : Path} (h : Settled root)
    (hrest : ∀ c ∈ rest, c = .curDir ∨ ∃ name, c = .normal name) :
    root <+: normalizeLexical (root ++ rest) := by
  induction rest using List.reverseRecOn with
  | nil =>
    refine ⟨[], ?_⟩
    rw [List.append_nil, normalizeLexical_settled h]
  | append_singleton rest c ih =>
    obtain ⟨hbefore, hc⟩ := List.forall_mem_append.mp hrest
    have hstep : normalizeLexical (root ++ (rest ++ [c])) =
        normalizeComponent (normalizeLexical (root ++ rest)) c := by
      rw [normalizeLexical, ← List.append_assoc, List.foldl_append]
      rfl
    rw [hstep]
    rcases hc c (List.mem_singleton_self c) with rfl | ⟨name, rfl⟩
    · exact ih hbefore
    · exact (ih hbefore).trans (List.prefix_append _ _)

theorem settled_canonicalizeOr {fs : FileSystem} (hfs : Absolute fs) (path fallback : Path) :
    Settled (canonicalizeOr fs path fallback) := by
  unfold canonicalizeOr
  split
  · obtain ⟨names, rfl⟩ := hfs _ _ ‹_›
    exact ⟨names, .inr rfl⟩
  · exact settled_normalizeLexical fallback

theorem settled_root (hvfs : Built vfs) {resource : String} {mount : Mount}
    (h : vfs.mounts resource = some mount) : Settled mount.root := by
  induction hvfs generalizing resource mount with
  | new => cases h
  | @mounted vfs vfs' fs named root writable _ hfs hmount ih =>
    simp only [Vfs.mount, bind_eq_ok] at hmount
    obtain ⟨-, -, heq⟩ := hmount
    cases heq
    dsimp only at h
    rw [Function.update_apply] at h
    split at h
    · cases h
      exact settled_canonicalizeOr hfs root root
    · exact ih h
  | @shared vfs vfs' named other _ hshare ih =>
    simp only [Vfs.share, bind_eq_ok] at hshare
    obtain ⟨-, -, -, -, hshare⟩ := hshare
    split at hshare
    · rename_i m hm
      split at hshare
      · cases hshare
        exact ih h
      · cases hshare
        dsimp only at h
        rw [Function.update_apply] at h
        split at h
        · cases h
          have hroot := ih hm
          exact hroot
        · exact ih h
    · cases hshare

end Normalization

section Sanitizing

structure Sanitized (raw rel : String) : Prop where
  text : rel.toList.splitOn '/' = partsOf raw
  relative : rel.toList.head? ≠ some '/'
  nul : '\x00' ∉ raw.toList
  names : ∀ part ∈ partsOf raw, isReservedDeviceName (String.ofList part) = false
  last : ':' ∉ (partsOf raw).getLastD []

theorem sanitized_of_ok (h : sanitizeRelative raw = .ok rel) : Sanitized raw rel := by
  unfold sanitizeRelative at h
  split at h
  · rename_i hempty
    cases h
    subst hempty
    exact ⟨rfl, nofun, List.not_mem_nil, by decide, by decide⟩
  split at h
  · cases h
  split at h
  · cases h
  rename_i hnul
  dsimp only at h
  rw [String.toList_ofList] at h
  split at h
  · cases h
  rename_i hrelative
  split at h
  · cases h
  rename_i hlast
  split at h
  · cases h
  rename_i hnames
  split at h
  · cases h
  cases h
  rw [not_or] at hrelative
  refine ⟨?_, ?_, hnul, fun part hpart ↦ ?_, hlast⟩
  · rw [String.toList_ofList]
    rfl
  · rw [String.toList_ofList]
    exact hrelative.1
  · exact Bool.eq_false_iff.mpr (List.find?_eq_none.mp hnames part hpart)

theorem walk_noParent {atStart : Bool} {acc path target : Path}
    (h : walk rel atStart acc path = .ok target) : Component.parentDir ∉ path := by
  induction path generalizing atStart acc with
  | nil => exact List.not_mem_nil
  | cons c path ih =>
    refine List.not_mem_cons_of_ne_of_not_mem ?_ ?_
    · rintro rfl
      cases h
    · cases c with
      | rootDir =>
        unfold walk at h
        split at h
        · exact ih h
        · cases h
      | curDir => exact ih h
      | parentDir => cases h
      | normal name => exact ih h

theorem verifyWithin_noParent (h : verifyWithin root path rel = .ok ()) :
    Component.parentDir ∉ path := by
  obtain ⟨acc, hwalk, -⟩ := bind_eq_ok.mp h
  exact walk_noParent hwalk

theorem components_relative (hrel : rel.toList.head? ≠ some '/') :
    ∃ front : Path, (∀ c ∈ front, c = .curDir) ∧
      components rel = front ++ (rel.toList.splitOn '/').filterMap Component.ofPart := by
  unfold components
  dsimp only
  rw [if_neg hrel]
  split
  · exact ⟨[.curDir], fun c hc ↦ List.mem_singleton.mp hc, rfl⟩
  · exact ⟨[], nofun, rfl⟩

theorem join_sanitized (h : Sanitized raw rel) (root : Path) :
    ∃ rest, join root rel = root ++ rest ∧
      (∀ c ∈ rest, c = .curDir ∧ root = [] ∨
        ∃ part ∈ partsOf raw, Component.ofPart part = some c) ∧
      ∀ part ∈ partsOf raw, ∀ c, Component.ofPart part = some c → c ∈ rest := by
  obtain ⟨front, hfront, hcomponents⟩ := components_relative h.relative
  rw [h.text] at hcomponents
  have hhead : (components rel).head? ≠ some .rootDir := by
    rw [hcomponents]
    intro hroot
    rcases List.mem_append.mp (List.mem_of_mem_head? hroot) with hmem | hmem
    · cases hfront _ hmem
    · obtain ⟨part, -, hpart⟩ := List.mem_filterMap.mp hmem
      exact Directories.ofPart_ne_rootDir part hpart
  have hpart {c : Component} :
      c ∈ components rel ↔ c ∈ front ∨ ∃ part ∈ partsOf raw, Component.ofPart part = some c := by
    rw [hcomponents, List.mem_append, List.mem_filterMap]
  unfold join
  dsimp only
  by_cases hroot : root = []
  · rw [if_pos (.inr hroot), hroot]
    refine ⟨components rel, rfl, fun c hc ↦ ?_, fun part hp c hc ↦ hpart.mpr (.inr ⟨part, hp, hc⟩)⟩
    exact (hpart.mp hc).imp_left fun hmem ↦ ⟨hfront c hmem, rfl⟩
  · rw [if_neg (not_or.mpr ⟨hhead, hroot⟩)]
    refine ⟨_, rfl, fun c hc ↦ ?_, fun part hp c hc ↦ ?_⟩
    · obtain ⟨hmem, hdot⟩ := List.mem_filter.mp hc
      refine .inr ((hpart.mp hmem).resolve_left fun hmem ↦ ?_)
      exact absurd (hfront c hmem) (of_decide_eq_true hdot)
    · refine List.mem_filter.mpr ⟨hpart.mpr (.inr ⟨part, hp, hc⟩), decide_eq_true ?_⟩
      rintro rfl
      exact Directories.ofPart_ne_curDir part hc

theorem plain_ofPart {part : List Char} {c : Component} (h : Sanitized raw rel)
    (hpart : part ∈ partsOf raw) (hcolon : ':' ∉ part) (hc : Component.ofPart part = some c)
    (hparent : c ≠ .parentDir) : Plain raw c := by
  cases c with
  | rootDir => exact absurd hc (Directories.ofPart_ne_rootDir part)
  | curDir => exact absurd hc (Directories.ofPart_ne_curDir part)
  | parentDir => exact absurd rfl hparent
  | normal name =>
    obtain rfl := Directories.ofPart_toList hc
    refine ⟨name, rfl, hpart, fun hnul ↦ ?_, hcolon, ?_⟩
    · obtain ⟨c, hmem, heq⟩ := List.mem_map.mp (subset_of_mem_splitOn hpart hnul)
      split at heq
      · cases heq
      · exact h.nul (heq ▸ hmem)
    · rw [← String.ofList_toList (s := name)]
      exact h.names _ hpart

end Sanitizing

structure Found (vfs : Vfs) (virtualPath caller : String) (path : Path) (resource raw rel : String)
    (mount : Mount) : Prop where
  split : splitVirtual virtualPath = .ok (resource, raw)
  sanitized : Sanitized raw rel
  mounted : vfs.mounts resource = some mount
  access : caller = resource ∨ caller ∈ mount.sharedWith
  joined : path = join mount.root rel
  noParent : Component.parentDir ∉ path

theorem found_of_resolve (h : vfs.resolve virtualPath caller = .ok path) :
    ∃ resource raw rel mount, Found vfs virtualPath caller path resource raw rel mount := by
  simp only [Vfs.resolve, bind_eq_ok] at h
  obtain ⟨⟨resource, raw⟩, hsplit, rel, hrel, h⟩ := h
  dsimp only at h
  split at h
  · cases h
  rename_i mount hmount
  simp only [bind_eq_ok] at h
  obtain ⟨_, haccess, _, hverify, heq⟩ := h
  cases heq
  refine ⟨resource, raw, rel, mount, hsplit, sanitized_of_ok hrel, hmount, ?_, rfl,
    verifyWithin_noParent hverify⟩
  unfold Vfs.checkAccess at haccess
  split at haccess
  · exact .inl (Eq.symm ‹_›)
  rw [hmount] at haccess
  dsimp only at haccess
  split at haccess
  · exact .inr ‹_›
  · cases haccess

/-- What is resolved is confined, but for a `:` in a part that is not the last. -/
theorem resolve_confined_iff (hvfs : Built vfs) (h : vfs.resolve virtualPath caller = .ok path) :
    Confined vfs virtualPath caller path ↔
      ∀ resource raw, splitVirtual virtualPath = .ok (resource, raw) →
        ∀ part ∈ (partsOf raw).dropLast, ':' ∉ part := by
  obtain ⟨resource, raw, rel, mount, hsplit, hrel, hmount, haccess, hjoin, hparent⟩ :=
    found_of_resolve h
  obtain ⟨rest, hrest, hparts, hall⟩ := join_sanitized hrel mount.root
  have hsplits : ∀ resource' raw', splitVirtual virtualPath = .ok (resource', raw') →
      resource' = resource ∧ raw' = raw := by
    intro resource' raw' heq
    cases hsplit.symm.trans heq
    exact ⟨rfl, rfl⟩
  constructor
  · rintro ⟨resource', raw', mount', heq, hmount', -, ⟨rest', hpath, hplain⟩, -⟩ _ _ heq' part
      hpart hcolon
    obtain ⟨rfl, rfl⟩ := hsplits _ _ heq
    obtain ⟨rfl, rfl⟩ := hsplits _ _ heq'
    cases hmount.symm.trans hmount'
    obtain rfl : rest = rest' := List.append_cancel_left ((hrest.symm.trans hjoin.symm).trans hpath)
    have hname : Component.ofPart part = some (.normal (String.ofList part)) := by
      refine Directories.ofPart_eq_normal ?_ ?_ ?_
      all_goals
        rintro rfl
        revert hcolon
        decide
    rcases hplain _ (hall part (List.dropLast_subset _ hpart) _ hname) with ⟨⟨⟩, -⟩ |
      ⟨name, heq, -, -, hclean, -⟩
    cases heq
    rw [String.toList_ofList] at hclean
    exact hclean hcolon
  · intro hcolon
    have hclean : ∀ part ∈ partsOf raw, ':' ∉ part := by
      intro part hpart
      have hne : partsOf raw ≠ [] := List.splitOn_ne_nil _ _
      rw [← List.dropLast_append_getLast hne, List.mem_append, List.mem_singleton] at hpart
      rcases hpart with hpart | rfl
      · exact hcolon resource raw hsplit part hpart
      · have hlast := hrel.last
        rwa [List.getLastD_eq_getLast?, List.getLast?_eq_some_getLast hne] at hlast
    have hplain : ∀ c ∈ rest, c = .curDir ∧ mount.root = [] ∨ Plain raw c := by
      intro c hc
      refine (hparts c hc).imp_right fun ⟨part, hpart, hcomponent⟩ ↦ ?_
      refine plain_ofPart hrel hpart (hclean part hpart) hcomponent ?_
      rintro rfl
      exact hparent (hjoin.trans hrest ▸ List.mem_append_right _ hc)
    refine ⟨resource, raw, mount, hsplit, hmount, haccess, ⟨rest, hjoin.trans hrest, hplain⟩, ?_⟩
    rw [hjoin, hrest]
    refine prefix_normalizeLexical (settled_root hvfs hmount) fun c hc ↦ ?_
    exact (hplain c hc).imp And.left fun ⟨name, hname, _⟩ ↦ ⟨name, hname⟩

def plainHost : FileSystem where
  canonicalize p :=
    if p = components "/srv/my_res" then .ok (components "/srv/my_res") else .error .notFound
  read _ := .error .notFound
  canonical p c h := by
    split at h
    · cases h
      rfl
    · cases h

def hosted : Vfs :=
  ⟨Function.update Vfs.new.mounts "my_res"
    (some ⟨"my_res", components "/srv/my_res", [], true⟩)⟩

theorem built_hosted : Built hosted := by
  have hmount : Vfs.new.mount plainHost "my_res" (components "/srv/my_res") true = .ok hosted := rfl
  refine .mounted .new (fun p c h ↦ ?_) hmount
  dsimp only [plainHost] at h
  split at h
  · cases h
    exact ⟨["srv", "my_res"], by decide⟩
  · cases h

theorem resolve_confined_nested :
    Confined hosted "@my_res/data/x.json" "my_res" (components "/srv/my_res/data/x.json") ↔
      ∀ resource raw, splitVirtual "@my_res/data/x.json" = .ok (resource, raw) →
        ∀ part ∈ (partsOf raw).dropLast, ':' ∉ part :=
  resolve_confined_iff built_hosted (by decide)

/-- The check looks at what follows the last separator, which is not the last component. -/
theorem stream_resolves :
    hosted.resolve "@my_res/file.txt:evil/." "my_res" =
      .ok (components "/srv/my_res/file.txt:evil") ∧
    ¬Confined hosted "@my_res/file.txt:evil/." "my_res"
      (components "/srv/my_res/file.txt:evil") := by
  have hresolve : hosted.resolve "@my_res/file.txt:evil/." "my_res" =
      .ok (components "/srv/my_res/file.txt:evil") := by decide
  have hsplit : splitVirtual "@my_res/file.txt:evil/." = .ok ("my_res", "file.txt:evil/.") := by
    decide
  refine ⟨hresolve, ?_⟩
  rintro ⟨resource, raw, mount, heq, hmount, -, ⟨rest, hpath, hplain⟩, -⟩
  cases hsplit.symm.trans heq
  cases hmount
  have hmem : Component.normal "file.txt:evil" ∈ rest := by
    have hrest : rest = (components "/srv/my_res/file.txt:evil").drop 3 := by
      rw [hpath]
      rfl
    rw [hrest]
    decide
  rcases hplain _ hmem with ⟨⟨⟩, -⟩ | ⟨name, hname, -, -, hcolon, -⟩
  cases hname
  exact hcolon (by decide)

end Aldivine.Files.Resolution
