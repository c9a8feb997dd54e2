import Aldivine.Files.Model
import Aldivine.Foundation.Fallible
import Mathlib.Data.Set.Finite.Basic

namespace Aldivine.Files.Containment

open Foundation.Fallible Model

def mountOf (vfs : Vfs) (virtualPath : String) : Option Mount :=
  match splitVirtual virtualPath with
  | .ok (resource, _) => vfs.mounts resource
  | .error _ => none

def rootOf (fs : FileSystem) (mount : Mount) : Path := canonicalizeOr fs mount.root mount.root

/-- What is read comes from a file below the canonical root of the mount. -/
def Contained (fs : FileSystem) (vfs : Vfs) (virtualPath caller : String) : Prop :=
  ∀ bytes, vfs.read fs virtualPath caller = .ok bytes →
    ∃ mount, mountOf vfs virtualPath = some mount ∧
      ∃ file, fs.read file = .ok bytes ∧ fs.canonicalize file = .ok file ∧ rootOf fs mount <+: file

section Reading

variable {fs fs' : FileSystem} {vfs : Vfs} {virtualPath caller : String} {root target real : Path}

theorem canonicalizeOr_of_ok {canonical : Path} (h : fs.canonicalize target = .ok canonical)
    (fallback : Path) : canonicalizeOr fs target fallback = canonical := by
  rw [canonicalizeOr, h]

theorem verifyCanonicalWithin_eq_ok :
    verifyCanonicalWithin fs root target = .ok () ↔
      canonicalizeOr fs root root <+: canonicalizeOr fs target target := by
  unfold verifyCanonicalWithin
  dsimp only
  split
  · rename_i heq
    exact iff_of_true rfl (heq ▸ List.prefix_rfl)
  split
  · rename_i hout
    exact iff_of_false (by rintro ⟨⟩) hout
  · rename_i hin
    exact iff_of_true rfl (not_not.mp hin)

theorem read_eq_ok {bytes : List UInt8} :
    vfs.read fs virtualPath caller = .ok bytes ↔
      ∃ target real, vfs.resolve virtualPath caller = .ok target ∧
        fs.canonicalize target = .ok real ∧
        canonicalizeOr fs (parent target) (parent target) <+: real ∧ fs.read real = .ok bytes := by
  simp only [Vfs.read, Vfs.readResolved, bind_eq_ok, mapError_eq_ok]
  constructor
  · rintro ⟨target, hresolve, real, hreal, ⟨⟩, hwithin, hread⟩
    have hprefix := verifyCanonicalWithin_eq_ok.mp hwithin
    rw [canonicalizeOr_of_ok (fs.canonical target real hreal)] at hprefix
    exact ⟨target, real, hresolve, hreal, hprefix, hread⟩
  · rintro ⟨target, real, hresolve, hreal, hprefix, hread⟩
    refine ⟨target, hresolve, real, hreal, (), verifyCanonicalWithin_eq_ok.mpr ?_, hread⟩
    rwa [canonicalizeOr_of_ok (fs.canonical target real hreal)]

theorem resolve_mount (h : vfs.resolve virtualPath caller = .ok target) :
    ∃ mount rel, mountOf vfs virtualPath = some mount ∧ target = join mount.root rel := by
  simp only [Vfs.resolve, bind_eq_ok] at h
  obtain ⟨⟨resource, raw⟩, hsplit, rel, -, h⟩ := h
  dsimp only at h
  split at h
  · cases h
  rename_i mount hmount
  simp only [bind_eq_ok] at h
  obtain ⟨-, -, -, -, hcandidate⟩ := h
  cases hcandidate
  exact ⟨mount, rel, by rw [mountOf, hsplit]; exact hmount, rfl⟩

theorem join_eq_nil {rel : String} (h : join root rel = []) : root = [] := by
  unfold join at h
  dsimp only at h
  split at h
  · rename_i hcase
    rw [h] at hcase
    exact hcase.resolve_left (by simp)
  · exact (List.append_eq_nil_iff.mp h).1

end Reading

/-- The other file system has the same directories where the code asks for them. -/
def SameDirectories (fs fs' : FileSystem) (vfs : Vfs) (virtualPath caller : String) : Prop :=
  ∀ mount target, mountOf vfs virtualPath = some mount →
    vfs.resolve virtualPath caller = .ok target →
    fs'.canonicalize mount.root = fs.canonicalize mount.root ∧
      fs'.canonicalize (parent target) = fs.canonicalize (parent target)

/-- The directory of the target is below the root of the mount, unless the target is that root. -/
def DirectoryInside (fs : FileSystem) (vfs : Vfs) (virtualPath caller : String) : Prop :=
  ∀ mount target, mountOf vfs virtualPath = some mount →
    vfs.resolve virtualPath caller = .ok target →
    target = mount.root ∨ fs.canonicalize mount.root = .ok target ∨
      rootOf fs mount <+: canonicalizeOr fs (parent target) (parent target)

section Links

variable {fs : FileSystem} {vfs : Vfs} {virtualPath caller : String} {root dir target real : Path}

theorem contained_of_directoryInside (h : DirectoryInside fs vfs virtualPath caller) :
    Contained fs vfs virtualPath caller := by
  intro bytes hread
  obtain ⟨target, real, hresolve, hreal, hprefix, hbytes⟩ := read_eq_ok.mp hread
  obtain ⟨mount, -, hmount, -⟩ := resolve_mount hresolve
  refine ⟨mount, hmount, real, hbytes, fs.canonical target real hreal, ?_⟩
  rcases h mount target hmount hresolve with rfl | hcanonical | hinside
  · rw [rootOf, canonicalizeOr_of_ok hreal]
  · have hsame := fs.canonical _ _ hcanonical
    rw [hreal] at hsame
    cases hsame
    rw [rootOf, canonicalizeOr_of_ok hcanonical]
  · exact hinside.trans hprefix

/-- The file system with a link at `target` to a file at `real`, and no other file. -/
def relinked (fs : FileSystem) (root dir target real : Path) (hroot : real ≠ root)
    (hdir : real ≠ dir)
    (htarget : ∀ c, fs.canonicalize root = .ok c ∨ fs.canonicalize dir = .ok c →
      c = target → real = target) : FileSystem where
  canonicalize q :=
    if q = root ∨ q = dir then fs.canonicalize q
    else if q = target ∨ q = real then .ok real
    else if fs.canonicalize q = .ok q then .ok q else .error .notFound
  read q := if q = real then .ok [] else .error .notFound
  canonical p c h := by
    have hreal : ¬(real = root ∨ real = dir) := not_or.mpr ⟨hroot, hdir⟩
    split at h
    · rename_i hp
      have hfixed := fs.canonical p c h
      have hdirectory : fs.canonicalize root = .ok c ∨ fs.canonicalize dir = .ok c := by
        rcases hp with rfl | rfl
        · exact .inl h
        · exact .inr h
      by_cases hc : c = root ∨ c = dir
      · rw [if_pos hc, hfixed]
      by_cases hlink : c = target ∨ c = real
      · rw [if_neg hc, if_pos hlink]
        exact congrArg _ (hlink.elim (fun he ↦ (htarget c hdirectory he).trans he.symm) Eq.symm)
      · rw [if_neg hc, if_neg hlink, if_pos hfixed]
    split at h
    · cases h
      rw [if_neg hreal, if_pos (.inr rfl)]
    rename_i hdirectory hlink
    split at h
    · rename_i hfixed
      cases h
      rw [if_neg hdirectory, if_neg hlink, if_pos hfixed]
    · cases h

end Links

theorem exists_fresh (dir : Path) (taken : Finset Path) :
    ∃ name, dir ++ [.normal name] ∉ taken := by
  have hinj : Function.Injective
      (fun n ↦ dir ++ [Component.normal (String.ofList (List.replicate n 'x'))]) := by
    intro m n h
    have hnames := List.append_cancel_left h
    simp only [List.cons.injEq, Component.normal.injEq, and_true] at hnames
    simpa using congrArg (fun s ↦ s.toList.length) hnames
  obtain ⟨_, ⟨n, rfl⟩, hn⟩ := (Set.infinite_range_of_injective hinj).exists_notMem_finset taken
  exact ⟨_, hn⟩

theorem exists_outside {rootC dirC root dir target : Path} (hroot : target ≠ root)
    (hdir : target ≠ dir) (hout : ¬rootC <+: dirC) :
    ∃ real, real ≠ root ∧ real ≠ dir ∧ (dirC = target → real = target) ∧ dirC <+: real ∧
      ¬rootC <+: real := by
  by_cases hloop : dirC = target
  · exact ⟨target, hroot, hdir, fun _ ↦ rfl, hloop ▸ List.prefix_rfl, hloop ▸ hout⟩
  obtain ⟨name, hname⟩ := exists_fresh dirC {root, dir, rootC}
  simp only [Finset.mem_insert, Finset.mem_singleton, not_or] at hname
  refine ⟨_, hname.1, hname.2.1, fun h ↦ absurd h hloop, List.prefix_append _ _, fun hin ↦ ?_⟩
  rcases List.prefix_concat_iff.mp hin with heq | hin
  · exact hname.2.2 heq.symm
  · exact hout hin

/-- Whatever lies in the directories, a read stays inside the mount, exactly when the directory of
the target does. -/
theorem read_contained_iff (fs : FileSystem) (vfs : Vfs) (virtualPath caller : String) :
    (∀ fs', SameDirectories fs fs' vfs virtualPath caller →
      Contained fs' vfs virtualPath caller) ↔ DirectoryInside fs vfs virtualPath caller := by
  constructor
  · intro hall mount target hmount hresolve
    by_contra hnot
    rw [not_or, not_or] at hnot
    obtain ⟨hroot, hcanonical, hout⟩ := hnot
    have hdir : target ≠ parent target := by
      intro heq
      have hnil : target = [] := by
        have hlen := congrArg List.length heq
        rw [parent, List.length_dropLast] at hlen
        exact List.length_eq_zero_iff.mp (by omega)
      obtain ⟨mount', rel, hmount', hjoin⟩ := resolve_mount hresolve
      obtain rfl := Option.some.inj (hmount.symm.trans hmount')
      exact hroot (hnil.trans (join_eq_nil (hjoin.symm.trans hnil)).symm)
    obtain ⟨real, hr, hd, hloop, hbelow, houtside⟩ := exists_outside hroot hdir hout
    let linked := relinked fs mount.root (parent target) target real hr hd (by
      rintro c (hc | hc) rfl
      · exact absurd hc hcanonical
      · exact hloop (canonicalizeOr_of_ok hc _))
    have hsame : SameDirectories fs linked vfs virtualPath caller := by
      intro mount' target' hmount' hresolve'
      obtain rfl := Option.some.inj (hmount.symm.trans hmount')
      rw [hresolve] at hresolve'
      cases hresolve'
      exact ⟨if_pos (.inl rfl), if_pos (.inr rfl)⟩
    have hlink : linked.canonicalize target = .ok real := by
      rw [show linked.canonicalize target = _ from if_neg (not_or.mpr ⟨hroot, hdir⟩),
        if_pos (.inl rfl)]
    obtain ⟨hsameRoot, hsameDir⟩ := hsame mount target hmount hresolve
    have hread : vfs.read linked virtualPath caller = .ok [] := by
      refine read_eq_ok.mpr ⟨target, real, hresolve, hlink, ?_, if_pos rfl⟩
      rwa [canonicalizeOr, hsameDir, ← canonicalizeOr]
    obtain ⟨mount', hmount', file, hfile, -, hinside⟩ := hall linked hsame [] hread
    obtain rfl := Option.some.inj (hmount.symm.trans hmount')
    rw [rootOf, canonicalizeOr, hsameRoot, ← canonicalizeOr] at hinside
    -- the only file is the one the link leads to
    by_cases hf : file = real
    · exact houtside (hf ▸ hinside)
    · rw [show linked.read file = _ from if_neg hf] at hfile
      cases hfile
  · intro hinside fs' hsame
    refine contained_of_directoryInside (fun mount target hmount hresolve ↦ ?_)
    obtain ⟨hroot, hdir⟩ := hsame mount target hmount hresolve
    have hin := hinside mount target hmount hresolve
    simpa only [rootOf, canonicalizeOr, hroot, hdir] using hin

def leaky : FileSystem where
  canonicalize p :=
    if p = components "/srv/my_res/link/secret.txt" then .ok (components "/outside/secret.txt")
    else if p = components "/srv/my_res/link" then .ok (components "/outside")
    else .ok p
  read p :=
    if p = components "/outside/secret.txt" then .ok [115, 101, 99, 114, 101, 116]
    else .error .notFound
  canonical p c h := by
    split at h
    · cases h
      decide
    split at h
    · cases h
      decide
    · rename_i hsecret hlink
      cases h
      rw [if_neg hsecret, if_neg hlink]

def served : Vfs :=
  ⟨Function.update Vfs.new.mounts "my_res"
    (some ⟨"my_res", components "/srv/my_res", [], true⟩)⟩

theorem link_leaks :
    Vfs.new.mount leaky "my_res" (components "/srv/my_res") true = .ok served ∧
      served.read leaky "@my_res/link/secret.txt" "my_res" = .ok [115, 101, 99, 114, 101, 116] ∧
      ¬Contained leaky served "@my_res/link/secret.txt" "my_res" := by
  have hread : served.read leaky "@my_res/link/secret.txt" "my_res" =
      .ok [115, 101, 99, 114, 101, 116] := by decide
  refine ⟨rfl, hread, fun h ↦ ?_⟩
  obtain ⟨mount, hmount, file, hfile, -, hinside⟩ := h _ hread
  have hroot : mountOf served "@my_res/link/secret.txt" =
      some ⟨"my_res", components "/srv/my_res", [], true⟩ := rfl
  rw [hroot] at hmount
  cases hmount
  by_cases hf : file = components "/outside/secret.txt"
  · rw [hf] at hinside
    revert hinside
    decide
  · rw [show leaky.read file = _ from if_neg hf] at hfile
    cases hfile

end Aldivine.Files.Containment
