import Aldivine.Node.Paths
import Aldivine.Node.Termination

namespace Aldivine.Node.Walking

open Foundation.Chains Foundation.Pieces
open Foundation.SemVer (cut cut_eq)
open Relation Resolver Loading Paths Termination

section Probed

variable {fromStr : FromStr} {fs : NodeFileSource} {base stem t b p : Path} {fromNodeModules : Bool}
  {fuel : ℕ}

theorem mem_probes_probe {exts : List (Path × ResolveKind)}
    (h : p ∈ (probe fs stem fromNodeModules exts).probes) : ∃ e ∈ exts, p = stem ++ e.1 := by
  induction exts with
  | nil => cases h
  | cons e exts ih =>
    rw [probe, Probing.probes_bind, probes_read, value_read] at h
    rcases List.mem_append.mp h with h | h
    · exact ⟨e, List.mem_cons_self, List.mem_singleton.mp h⟩
    · cases hread : fs.read (stem ++ e.1) with
      | some bytes =>
        rw [hread] at h
        cases h
      | none =>
        rw [hread] at h
        obtain ⟨other, hother, heq⟩ := ih h
        exact ⟨other, List.mem_cons_of_mem _ hother, heq⟩

theorem mem_probes_asFile (h : p ∈ (asFile fs base fromNodeModules).probes) :
    p = base ∨ ∃ e ∈ probeExts, p = base ++ e.1 := by
  rw [asFile, Probing.probes_bind] at h
  rcases List.mem_append.mp h with h | h
  · exact .inl (List.mem_singleton.mp h)
  · cases hexact : (exactFile fs base fromNodeModules).value with
    | some r =>
      rw [hexact] at h
      cases h
    | none =>
      rw [hexact] at h
      exact .inr (mem_probes_probe h)

theorem self_mem_probes :
    t ∈ (loadAsFileOrDir fromStr fs fromNodeModules (fuel + 1) t).probes := by
  rw [loadAsFileOrDir, Probing.probes_bind, asFile, Probing.probes_bind]
  exact List.mem_append_left _ (List.mem_append_left _ List.mem_cons_self)

theorem probes_dir (hfile : NoFile fs t) (hdir : fs.isDir t = true) :
    ∃ more, (loadAsFileOrDir fromStr fs fromNodeModules (fuel + 1) t).probes =
        (asFile fs t fromNodeModules).probes ++
          t :: (trimSlash t ++ "/package.json".toList) :: more ∧
      (∀ b, Leads fromStr fs t b →
        (loadAsFileOrDir fromStr fs fromNodeModules fuel b).probes ⊆ more) ∧
      ∀ p ∈ more, p ∈ (asIndex fs t fromNodeModules).probes ∨
        ∃ b, Leads fromStr fs t b ∧ p ∈ (loadAsFileOrDir fromStr fs fromNodeModules fuel b).probes := by
  rw [loadAsFileOrDir, Probing.probes_bind, asFile_none_iff.mpr hfile]
  simp only [Probing.probes_bind, probes_isDir, value_isDir, hdir, if_true]
  have hprobes : (mainTarget fromStr fs t).probes = [trimSlash t ++ "/package.json".toList] := rfl
  rw [hprobes, List.singleton_append, List.singleton_append]
  cases hmain : (mainTarget fromStr fs t).value with
  | none =>
    refine ⟨_, rfl, fun b hb ↦ ?_, fun p hp ↦ ?_⟩
    · rw [hb.2.2] at hmain
      cases hmain
    · simp only [Probing.probes_bind, Probing.probes_pure, List.append_nil] at hp
      exact .inl hp
  | some b =>
    have hleads : Leads fromStr fs t b := ⟨hfile, hdir, hmain⟩
    refine ⟨_, rfl, fun c hc ↦ ?_, fun p hp ↦ ?_⟩
    · rw [leads_unique hc hleads]
      exact List.subset_append_left _ _
    · rcases List.mem_append.mp hp with hp | hp
      · exact .inr ⟨b, hleads, hp⟩
      · simp only at hp
        split at hp
        · cases hp
        · cases hp
        · simp only [Probing.probes_bind, Probing.probes_pure, List.append_nil] at hp
          exact .inl hp

theorem probes_not_dir (h : ¬(NoFile fs t ∧ fs.isDir t = true)) :
    (loadAsFileOrDir fromStr fs fromNodeModules (fuel + 1) t).probes ⊆
      (asFile fs t fromNodeModules).probes ++ [t] := by
  rw [loadAsFileOrDir, Probing.probes_bind]
  cases hfile : (asFile fs t fromNodeModules).value with
  | some r => exact List.append_subset.mpr ⟨List.subset_append_left _ _, List.nil_subset _⟩
  | none =>
    have hdir : fs.isDir t = false := by
      by_contra hdir
      exact h ⟨asFile_none_iff.mp hfile, Bool.not_eq_false _ ▸ hdir⟩
    simp only [Probing.probes_bind, probes_isDir, value_isDir, hdir, Bool.false_eq_true, if_false]
    exact List.Subset.refl _

/-- Loading passes to the source what lies on the chain of mains. -/
theorem probes_chain {c : Path} {found : Option Resolved}
    (h : (loadAsFileOrDir fromStr fs fromNodeModules fuel t).value = some found)
    (hchain : ReflTransGen (Leads fromStr fs) t c) :
    ∃ fuel', (loadAsFileOrDir fromStr fs fromNodeModules (fuel' + 1) c).probes ⊆
      (loadAsFileOrDir fromStr fs fromNodeModules fuel t).probes := by
  induction fuel generalizing t found with
  | zero => cases h
  | succ fuel ih =>
    rcases ReflTransGen.cases_head hchain with rfl | ⟨b, htb, hbc⟩
    · exact ⟨fuel, List.Subset.refl _⟩
    · rw [load_main htb, Option.map_eq_some_iff] at h
      obtain ⟨next, hnext, -⟩ := h
      obtain ⟨fuel', hsub⟩ := ih hnext hbc
      obtain ⟨more, hprobes, hleads, -⟩ := @probes_dir fromStr fs t fromNodeModules fuel htb.1 htb.2.1
      rw [hprobes]
      refine ⟨fuel', fun p hp ↦ List.mem_append_right _ ?_⟩
      exact List.mem_cons_of_mem _ (List.mem_cons_of_mem _ (hleads b htb (hsub hp)))

end Probed

section Roots

variable {fromStr : FromStr} {fs : NodeFileSource} {t b p : Path} {fromNodeModules : Bool}
  {fuel : ℕ}

/-- The chain of mains comes to the root directory, with no file in its place. -/
def PassesRoot (fromStr : FromStr) (fs : NodeFileSource) (t : Path) : Prop :=
  ReflTransGen (Leads fromStr fs) t ['/'] ∧ NoFile fs ['/'] ∧ fs.isDir ['/'] = true

theorem normal_of_asFile (h : Normal t) (hp : p ∈ (asFile fs t fromNodeModules).probes) :
    Normal p := by
  rcases mem_probes_asFile hp with rfl | ⟨e, he, rfl⟩
  · exact h
  · exact h.ext he

theorem leads_normal (h : Leads fromStr fs t b) (ht : Normal t) : Normal b := by
  have hmain := h.2.2
  simp only [mainTarget, Probing.value_bind, Probing.value_pure] at hmain
  obtain ⟨bytes, -, hmain⟩ := Option.bind_eq_some_iff.mp hmain
  obtain ⟨src, -, hmain⟩ := Option.bind_eq_some_iff.mp hmain
  obtain ⟨pkg, -, hmain⟩ := Option.bind_eq_some_iff.mp hmain
  obtain ⟨main, -, hmain⟩ := Option.bind_eq_some_iff.mp hmain
  rw [← Option.some.inj hmain]
  exact ht.join _

/-- From a path in good order, paths in good order are all that comes to the source, unless the
chain of mains comes to the root. -/
theorem probes_normal (ht : Normal t) (hroot : ¬PassesRoot fromStr fs t)
    (hp : p ∈ (loadAsFileOrDir fromStr fs fromNodeModules fuel t).probes) : Normal p := by
  induction fuel generalizing t with
  | zero => cases hp
  | succ fuel ih =>
    by_cases hdir : NoFile fs t ∧ fs.isDir t = true
    · have hne : t ≠ ['/'] := by
        rintro rfl
        exact hroot ⟨.refl, hdir⟩
      obtain ⟨more, hprobes, -, hmore⟩ :=
        @probes_dir fromStr fs t fromNodeModules fuel hdir.1 hdir.2
      rw [hprobes] at hp
      rcases List.mem_append.mp hp with hp | hp
      · exact normal_of_asFile ht hp
      rcases List.mem_cons.mp hp with rfl | hp
      · exact ht
      rcases List.mem_cons.mp hp with rfl | hp
      · exact ht.inside hne ⟨by decide, by decide, by decide, by decide⟩
      rcases hmore p hp with hp | ⟨b, hb, hp⟩
      · obtain ⟨e, he, rfl⟩ := mem_probes_probe hp
        exact (ht.inside hne ⟨by decide, by decide, by decide, by decide⟩).ext he
      · exact ih (leads_normal hb ht) (fun hpasses ↦ hroot ⟨.head hb hpasses.1, hpasses.2⟩) hp
    · rcases List.mem_append.mp (probes_not_dir hdir hp) with hp | hp
      · exact normal_of_asFile ht hp
      · rw [List.mem_singleton.mp hp]
        exact ht

theorem probes_root {found : Option Resolved}
    (h : (loadAsFileOrDir fromStr fs fromNodeModules fuel t).value = some found)
    (hpasses : PassesRoot fromStr fs t) :
    ∃ p ∈ (loadAsFileOrDir fromStr fs fromNodeModules fuel t).probes, ¬Normal p := by
  obtain ⟨hchain, hfile, hdir⟩ := hpasses
  obtain ⟨fuel', hsub⟩ := probes_chain h hchain
  obtain ⟨more, hprobes, -, -⟩ := @probes_dir fromStr fs ['/'] fromNodeModules fuel' hfile hdir
  refine ⟨"//package.json".toList, hsub ?_, not_normal_slashes _⟩
  rw [hprobes]
  exact List.mem_append_right _ (List.mem_cons_of_mem _ List.mem_cons_self)

end Roots

section Rounds

variable {fromStr : FromStr} {fs : NodeFileSource} {spec pkgName dir p : Path} {rest : Option Path}
  {fuel rounds : ℕ} {answer : Except NodeError Resolved}

/-- The targets in the directories below the `n`-th on the way up have nothing to be loaded. -/
def Missed (fromStr : FromStr) (fs : NodeFileSource) (pkgName : Path) (rest : Option Path)
    (dir : Path) (n : ℕ) : Prop :=
  ∀ m < n, ¬Loadable fromStr fs (targetIn pkgName rest (parentOf^[m] dir))

theorem Missed.up {n : ℕ} (h : Missed fromStr fs pkgName rest (parentOf dir) n)
    (hnot : ¬Loadable fromStr fs (targetIn pkgName rest dir)) :
    Missed fromStr fs pkgName rest dir (n + 1) := by
  intro m hm
  cases m with
  | zero => exact hnot
  | succ m => exact h m (Nat.lt_of_succ_lt_succ hm)

/-- The walk ends with the first target that can be loaded, or at the root when there is none. -/
theorem walk_answer
    (h : (walk fromStr fs fuel spec pkgName rest rounds dir).value = some answer) :
    (∃ r n, answer = .ok r ∧ Missed fromStr fs pkgName rest dir n ∧
      Loads fromStr fs true (targetIn pkgName rest (parentOf^[n] dir)) (some r)) ∨
    answer = .error (.notFound spec) ∧ ∀ n, Missed fromStr fs pkgName rest dir n := by
  induction rounds generalizing dir with
  | zero => cases h
  | succ rounds ih =>
    obtain ⟨found, hload⟩ := load_of_walk h
    have hloads : Loads fromStr fs true (targetIn pkgName rest dir) found := ⟨fuel, hload⟩
    cases found with
    | some r =>
      rw [walk_found hload] at h
      exact .inl ⟨r, 0, (Option.some.inj h).symm, fun m hm ↦ absurd hm (Nat.not_lt_zero m), hloads⟩
    | none =>
      have hnot : ¬Loadable fromStr fs (targetIn pkgName rest dir) :=
        fun hloadable ↦ hloads.loadable.mp hloadable rfl
      rw [walk_up hload] at h
      by_cases htop : parentOf dir = dir
      · rw [if_pos htop] at h
        refine .inr ⟨(Option.some.inj h).symm, fun n m hm ↦ ?_⟩
        rw [Function.iterate_fixed htop]
        exact hnot
      · rw [if_neg htop] at h
        rcases ih h with ⟨r, n, hanswer, hmissed, hfound⟩ | ⟨hanswer, hmissed⟩
        · exact .inl ⟨r, n + 1, hanswer, hmissed.up hnot, hfound⟩
        · refine .inr ⟨hanswer, fun n ↦ ?_⟩
          exact fun m hm ↦ (hmissed m).up hnot m (Nat.lt_succ_self m)

theorem mem_probes_walk (h : p ∈ (walk fromStr fs fuel spec pkgName rest rounds dir).probes) :
    ∃ n, Missed fromStr fs pkgName rest dir n ∧
      p ∈ (loadAsFileOrDir fromStr fs true fuel
        (targetIn pkgName rest (parentOf^[n] dir))).probes := by
  induction rounds generalizing dir with
  | zero => cases h
  | succ rounds ih =>
    rw [walk, Probing.probes_bind] at h
    rcases List.mem_append.mp h with h | h
    · exact ⟨0, fun m hm ↦ absurd hm (Nat.not_lt_zero m), h⟩
    · cases hload : (loadAsFileOrDir fromStr fs true fuel (targetIn pkgName rest dir)).value with
      | none =>
        rw [hload] at h
        cases h
      | some found =>
        rw [hload] at h
        cases found with
        | some r => cases h
        | none =>
          have hloads : Loads fromStr fs true (targetIn pkgName rest dir) none := ⟨fuel, hload⟩
          simp only at h
          split at h
          · cases h
          · obtain ⟨n, hmissed, hp⟩ := ih h
            exact ⟨n + 1, hmissed.up (fun hloadable ↦ hloads.loadable.mp hloadable rfl), hp⟩

theorem probes_walk
    (h : (walk fromStr fs fuel spec pkgName rest rounds dir).value = some answer) {n : ℕ}
    (hmissed : Missed fromStr fs pkgName rest dir n) :
    (loadAsFileOrDir fromStr fs true fuel (targetIn pkgName rest (parentOf^[n] dir))).probes ⊆
        (walk fromStr fs fuel spec pkgName rest rounds dir).probes ∧
      ∃ found, (loadAsFileOrDir fromStr fs true fuel
        (targetIn pkgName rest (parentOf^[n] dir))).value = some found := by
  induction rounds generalizing dir n with
  | zero => cases h
  | succ rounds ih =>
    obtain ⟨found, hload⟩ := load_of_walk h
    have hloads : Loads fromStr fs true (targetIn pkgName rest dir) found := ⟨fuel, hload⟩
    have hhere : (loadAsFileOrDir fromStr fs true fuel (targetIn pkgName rest dir)).probes ⊆
        (walk fromStr fs fuel spec pkgName rest (rounds + 1) dir).probes := by
      rw [walk, Probing.probes_bind]
      exact List.subset_append_left _ _
    cases n with
    | zero => exact ⟨hhere, found, hload⟩
    | succ n =>
      have hnone : found = none := by
        by_contra hsome
        exact hmissed 0 (Nat.succ_pos n) (hloads.loadable.mpr hsome)
      rw [hnone] at hload
      by_cases htop : parentOf dir = dir
      · rw [Function.iterate_fixed htop]
        exact ⟨hhere, none, hload⟩
      · rw [walk_up hload, if_neg htop] at h
        have hup : Missed fromStr fs pkgName rest (parentOf dir) n :=
          fun m hm ↦ hmissed (m + 1) (Nat.succ_lt_succ hm)
        obtain ⟨hsub, hvalue⟩ := ih h hup
        refine ⟨fun p hp ↦ ?_, hvalue⟩
        rw [walk, Probing.probes_bind, hload]
        simp only [if_neg htop]
        exact List.mem_append_right _ (hsub hp)

end Rounds

section Specifiers

variable {spec : Path}

/-- A package, perhaps scoped and perhaps with a path in it, none of it relative. -/
structure Bare (spec : Path) : Prop where
  nonempty : spec ≠ []
  relative : ∀ s ∈ spec.splitOn '/', s ≠ ['.'] ∧ s ≠ ['.', '.']
  absolute : spec.head? ≠ some '/'
  scope : spec.head? = some '@' → '/' ∈ spec

theorem Bare.not_path (h : Bare spec) : (isRelative spec || isAbsolute spec) = false := by
  have hpiece : ∀ first rest, spec = first ++ '/' :: rest → '/' ∉ first → first ∈ spec.splitOn '/' := by
    intro first rest heq hfirst
    rw [heq, List.splitOn_append_cons_self, List.splitOn_eq_singleton hfirst]
    exact List.mem_cons_self
  have hself : '/' ∉ spec → spec ∈ spec.splitOn '/' := by
    intro hspec
    rw [List.splitOn_eq_singleton hspec]
    exact List.mem_cons_self
  by_contra hpath
  rw [Bool.not_eq_false, isRelative, isAbsolute] at hpath
  simp only [Bool.or_eq_true, List.isPrefixOf_iff_prefix, beq_iff_eq] at hpath
  rcases hpath with (((⟨rest, heq⟩ | ⟨rest, heq⟩) | heq) | heq) | ⟨rest, heq⟩
  · exact (h.relative _ (hpiece ['.'] rest heq.symm (by decide))).1 rfl
  · exact (h.relative _ (hpiece ['.', '.'] rest heq.symm (by decide))).2 rfl
  · exact (h.relative _ (hself (by rw [heq]; decide))).1 heq
  · exact (h.relative _ (hself (by rw [heq]; decide))).2 heq
  · exact h.absolute (by rw [← heq]; rfl)

theorem targetIn_some (pkgName rest dir : Path) : targetIn pkgName (some rest) dir =
    trimSlash dir ++ "/node_modules/".toList ++ (pkgName ++ '/' :: rest) :=
  List.append_assoc _ _ _

theorem Bare.package (h : Bare spec) : ∃ pkgName rest, packageOf spec = some (pkgName, rest) ∧
    pkgName ≠ [] ∧
    ∀ dir, targetIn pkgName rest dir = trimSlash dir ++ "/node_modules/".toList ++ spec := by
  obtain ⟨hfirst, hcut⟩ := cut_eq '/' spec
  generalize hparts : cut '/' spec = parts at hfirst hcut
  obtain ⟨first, next⟩ := parts
  simp only at hfirst hcut
  have hne : first ≠ [] := by
    rintro rfl
    rcases hcut with ⟨-, heq⟩ | ⟨rest, -, heq⟩
    · exact h.nonempty heq.symm
    · exact h.absolute (by rw [← heq]; rfl)
  rw [packageOf, hparts]
  simp only
  by_cases hat : first.head? = some '@'
  · rw [if_pos hat]
    obtain ⟨rest, hrest, heq⟩ : ∃ rest, next = some rest ∧ first ++ '/' :: rest = spec := by
      refine hcut.resolve_left (fun hnone ↦ hfirst ?_)
      rw [hnone.2]
      exact h.scope (by rw [← hnone.2]; exact hat)
    obtain ⟨-, hcut'⟩ := cut_eq '/' rest
    cases hsplit : cut '/' rest with
    | mk second more =>
      rw [hsplit] at hcut'
      refine ⟨first ++ '/' :: second, more, by rw [hrest, Option.map_some, hsplit], by simp,
        fun dir ↦ ?_⟩
      rcases hcut' with ⟨hnone, hsecond⟩ | ⟨tail, hsome, hsecond⟩
      · obtain rfl : more = none := hnone
        obtain rfl : second = rest := hsecond
        rw [← heq]
        rfl
      · obtain rfl : more = some tail := hsome
        obtain rfl : second ++ '/' :: tail = rest := hsecond
        rw [← heq, targetIn_some, List.append_assoc first, List.cons_append]
  · rw [if_neg hat]
    refine ⟨_, _, rfl, hne, fun dir ↦ ?_⟩
    rcases hcut with ⟨rfl, rfl⟩ | ⟨rest, rfl, rfl⟩
    · rfl
    · exact targetIn_some _ _ _

end Specifiers

section Ancestors

variable {fromStr : FromStr} {fs : NodeFileSource} {spec : Path} {segs : List Path} {k n : ℕ}

def level (segs : List Path) (k : ℕ) : Path := pathOf (segs.take k)

def inside (spec dir : Path) : Path :=
  (if dir = ['/'] then [] else dir) ++ "/node_modules/".toList ++ spec

theorem parentOf_iterate (hnames : ∀ s ∈ segs, Name s) (n : ℕ) :
    parentOf^[n] (pathOf segs) = level segs (segs.length - n) := by
  induction n with
  | zero => rw [Function.iterate_zero_apply, level, Nat.sub_zero, List.take_length]
  | succ n ih =>
    rw [Function.iterate_succ_apply', ih, level, level]
    cases hk : segs.length - n with
    | zero =>
      rw [Nat.sub_succ, hk]
      rfl
    | succ k =>
      have hlt : k < segs.length := by omega
      rw [Nat.sub_succ, hk, Nat.pred_succ, List.take_succ_eq_append_getElem hlt]
      refine parentOf_pathOf (fun s hs ↦ hnames s ?_)
      rw [← List.take_succ_eq_append_getElem hlt] at hs
      exact List.mem_of_mem_take hs

theorem take_ne_nil (hpos : 0 < k) (hle : k ≤ segs.length) : segs.take k ≠ [] := by
  intro hnil
  have hlen := congrArg List.length hnil
  rw [List.length_take, List.length_nil] at hlen
  omega

theorem names_take (hnames : ∀ s ∈ segs, Name s) (k : ℕ) : ∀ s ∈ segs.take k, Name s :=
  fun s hs ↦ hnames s (List.mem_of_mem_take hs)

theorem level_ne_root (hnames : ∀ s ∈ segs, Name s) (hpos : 0 < k) (hle : k ≤ segs.length) :
    level segs k ≠ ['/'] :=
  pathOf_ne_root (names_take hnames k) (take_ne_nil hpos hle)

theorem trimSlash_level (hnames : ∀ s ∈ segs, Name s) (hpos : 0 < k) (hle : k ≤ segs.length) :
    trimSlash (level segs k) = level segs k :=
  trimSlash_pathOf (names_take hnames k) (take_ne_nil hpos hle)

theorem normal_inside (hnames : ∀ s ∈ segs, Name s) (hpos : 0 < k) (hle : k ≤ segs.length)
    (hspec : ∀ s ∈ spec.splitOn '/', Name s) : Normal (inside spec (level segs k)) := by
  have hmodules : Name "node_modules".toList := ⟨by decide, by decide, by decide, by decide⟩
  have hne := take_ne_nil hpos hle
  refine ⟨segs.take k ++ "node_modules".toList :: spec.splitOn '/', ?_, ?_⟩
  · rw [List.forall_mem_append, List.forall_mem_cons]
    exact ⟨names_take hnames k, hmodules, hspec⟩
  · rw [inside, if_neg (level_ne_root hnames hpos hle), level, pathOf_of_ne hne,
      pathOf_of_ne (by simp), List.flatMap_append, List.flatMap_cons, ← slash_splitOn]
    simp

end Ancestors

section Resolving

variable {fromStr : FromStr} {fs : NodeFileSource} {spec pkgName : Path} {rest : Option Path}
  {segs : List Path} {n : ℕ}

/-- Resolving comes back with what can be loaded in the deepest directory, the root included, and
passes on to the source only paths in good order. -/
structure Right (fromStr : FromStr) (fs : NodeFileSource) (spec : Path) (segs : List Path) :
    Prop where
  resolved : ∃ fuel answer, (resolve fromStr fs fuel spec (pathOf segs)).value = some answer ∧
    ((∃ r, answer = .ok r) ↔
      ∃ k ≤ segs.length, Loadable fromStr fs (inside spec (level segs k))) ∧
    ∀ r, answer = .ok r → ∃ k ≤ segs.length,
      Loads fromStr fs true (inside spec (level segs k)) (some r) ∧
      ∀ j, k < j → j ≤ segs.length → ¬Loadable fromStr fs (inside spec (level segs j))
  normal : ∀ fuel, ∀ p ∈ (resolve fromStr fs fuel spec (pathOf segs)).probes, Normal p

/-- Some directory other than the root has something to be loaded, and there and below the chains of
mains end and do not come to the root. -/
structure Smooth (fromStr : FromStr) (fs : NodeFileSource) (spec : Path) (segs : List Path) :
    Prop where
  segments : ∀ s ∈ spec.splitOn '/', s ≠ []
  found : ∃ k, 0 < k ∧ k ≤ segs.length ∧ Loadable fromStr fs (inside spec (level segs k)) ∧
    ∀ j, k ≤ j → j ≤ segs.length → Ends (Leads fromStr fs) (inside spec (level segs j)) ∧
      ¬PassesRoot fromStr fs (inside spec (level segs j))

theorem target_below (hnames : ∀ s ∈ segs, Name s)
    (htarget : ∀ dir, targetIn pkgName rest dir =
      trimSlash dir ++ "/node_modules/".toList ++ spec)
    (hn : n < segs.length) : targetIn pkgName rest (parentOf^[n] (pathOf segs)) =
      inside spec (level segs (segs.length - n)) := by
  have hpos : 0 < segs.length - n := by omega
  rw [parentOf_iterate hnames, htarget, trimSlash_level hnames hpos (Nat.sub_le _ _), inside,
    if_neg (level_ne_root hnames hpos (Nat.sub_le _ _))]

theorem target_top (hnames : ∀ s ∈ segs, Name s)
    (htarget : ∀ dir, targetIn pkgName rest dir =
      trimSlash dir ++ "/node_modules/".toList ++ spec)
    (hn : segs.length ≤ n) : targetIn pkgName rest (parentOf^[n] (pathOf segs)) =
      '/' :: '/' :: ("node_modules/".toList ++ spec) := by
  rw [parentOf_iterate hnames, htarget, Nat.sub_eq_zero_of_le hn]
  rfl

theorem smooth_of_right (hnames : ∀ s ∈ segs, Name s) (hbare : Bare spec)
    (h : Right fromStr fs spec segs) : Smooth fromStr fs spec segs := by
  obtain ⟨pkgName, rest, hpackage, hname, htarget⟩ := hbare.package
  obtain ⟨⟨fuel, answer, hvalue, -⟩, hnormal⟩ := h
  have hnormal := hnormal fuel
  rw [resolve_package hbare.nonempty hbare.not_path hpackage hname] at hvalue hnormal
  have hprobed : ∀ n, Missed fromStr fs pkgName rest (pathOf segs) n →
      Normal (targetIn pkgName rest (parentOf^[n] (pathOf segs))) ∧
        Ends (Leads fromStr fs) (targetIn pkgName rest (parentOf^[n] (pathOf segs))) ∧
        ¬PassesRoot fromStr fs (targetIn pkgName rest (parentOf^[n] (pathOf segs))) := by
    intro n hmissed
    obtain ⟨hsub, found, hload⟩ := probes_walk hvalue hmissed
    refine ⟨hnormal _ (hsub ?_), loads_iff_ends.mp ⟨found, fuel, hload⟩, fun hpasses ↦ ?_⟩
    · cases fuel with
      | zero => cases hload
      | succ fuel => exact self_mem_probes
    · obtain ⟨p, hp, hnot⟩ := probes_root hload hpasses
      exact hnot (hnormal p (hsub hp))
  have hexists : ∃ n, n < segs.length ∧
      Loadable fromStr fs (targetIn pkgName rest (parentOf^[n] (pathOf segs))) := by
    by_contra hnone
    have hmissed : Missed fromStr fs pkgName rest (pathOf segs) segs.length :=
      fun m hm hloadable ↦ hnone ⟨m, hm, hloadable⟩
    have htop := (hprobed _ hmissed).1
    rw [target_top hnames htarget (Nat.le_refl _)] at htop
    exact not_normal_slashes _ htop
  classical
  have hfirst := Nat.find_spec hexists
  have hmissed : ∀ n ≤ Nat.find hexists, Missed fromStr fs pkgName rest (pathOf segs) n := by
    intro n hn m hm hloadable
    exact Nat.find_min hexists (hm.trans_le hn) ⟨(hm.trans_le hn).trans hfirst.1, hloadable⟩
  refine ⟨?_, segs.length - Nat.find hexists, by omega, Nat.sub_le _ _, ?_, fun j hk hj ↦ ?_⟩
  · have hself := (hprobed 0 (hmissed 0 (Nat.zero_le _))).1
    have hsplit : "/node_modules/".toList = "/node_modules".toList ++ ['/'] := by decide
    rw [htarget, hsplit, ← List.append_assoc, List.append_assoc, List.singleton_append] at hself
    exact fun s hs ↦ (hself.names hbare.nonempty s hs).nonempty
  · rw [← target_below hnames htarget hfirst.1]
    exact hfirst.2
  · have hprobe := (hprobed (segs.length - j) (hmissed _ (by omega))).2
    rw [target_below hnames htarget (by omega), Nat.sub_sub_self hj] at hprobe
    exact hprobe

theorem right_of_smooth (hnames : ∀ s ∈ segs, Name s) (hbare : Bare spec)
    (h : Smooth fromStr fs spec segs) : Right fromStr fs spec segs := by
  obtain ⟨pkgName, rest, hpackage, hname, htarget⟩ := hbare.package
  obtain ⟨hsegments, k, hpos, hle, hloadable, hchains⟩ := h
  have hspec : ∀ s ∈ spec.splitOn '/', Name s := fun s hs ↦
    ⟨hsegments s hs, (hbare.relative s hs).1, (hbare.relative s hs).2, not_mem_of_mem_splitOn hs⟩
  have hbelow : ∀ n, Missed fromStr fs pkgName rest (pathOf segs) n → n ≤ segs.length - k := by
    intro n hmissed
    by_contra hbeyond
    refine hmissed (segs.length - k) (by omega) ?_
    rwa [target_below hnames htarget (by omega), Nat.sub_sub_self hle]
  have htargets : ∀ n, Missed fromStr fs pkgName rest (pathOf segs) n →
      targetIn pkgName rest (parentOf^[n] (pathOf segs)) =
        inside spec (level segs (segs.length - n)) := by
    intro n hmissed
    have hn := hbelow n hmissed
    exact target_below hnames htarget (by omega)
  have hends : WalkEnds fromStr fs pkgName rest (pathOf segs) := by
    intro n hmissed
    have hn := hbelow n hmissed
    rw [htargets n hmissed]
    exact (hchains _ (by omega) (Nat.sub_le _ _)).1
  constructor
  · obtain ⟨fuel, rounds, answer, hwalk⟩ := @walk_returns fromStr fs spec pkgName _ rest hends
    have hmore := walk_mono hwalk rounds fuel
    rw [Nat.add_comm rounds] at hmore
    obtain ⟨r, n, rfl, hmissed, hfound⟩ | ⟨-, hmissed⟩ := walk_answer hwalk
    · have hn := hbelow n hmissed
      rw [htargets n hmissed] at hfound
      refine ⟨fuel + rounds, .ok r, ?_, ?_, fun r' hr' ↦ ?_⟩
      · rw [resolve_package hbare.nonempty hbare.not_path hpackage hname, hmore]
      · exact iff_of_true ⟨r, rfl⟩ ⟨k, hle, hloadable⟩
      · obtain rfl := Except.ok.inj hr'
        refine ⟨segs.length - n, Nat.sub_le _ _, hfound, fun j hlt hj ↦ ?_⟩
        have hdeeper := hmissed (segs.length - j) (by omega)
        rwa [target_below hnames htarget (by omega), Nat.sub_sub_self hj] at hdeeper
    · have hbeyond := hbelow _ (hmissed (segs.length + 1))
      omega
  · intro fuel p hp
    rw [resolve_package hbare.nonempty hbare.not_path hpackage hname] at hp
    obtain ⟨n, hmissed, hp⟩ := mem_probes_walk hp
    have hn := hbelow n hmissed
    rw [htargets n hmissed] at hp
    refine probes_normal ?_ (hchains _ (by omega) (Nat.sub_le _ _)).2 hp
    exact normal_inside hnames (by omega) (Nat.sub_le _ _) hspec

/-- A bare specifier is resolved as it should be exactly where it is found below the root. -/
theorem right_iff (hbare : Bare spec) (hnames : ∀ s ∈ segs, Name s) :
    Right fromStr fs spec segs ↔ Smooth fromStr fs spec segs :=
  ⟨smooth_of_right hnames hbare, right_of_smooth hnames hbare⟩

end Resolving

section Example

/-- A source with one package in the directory `dir`, which is an index and nothing else. -/
def installed (dir : String) : NodeFileSource where
  read p := if p = (dir ++ "/node_modules/left-pad/index.js").toList then some [] else none
  isDir p := p = (dir ++ "/node_modules/left-pad").toList

def noText : FromStr := fun _ ↦ .error "EOF while parsing a value at line 1 column 0"

theorem leftPad_bare : Bare "left-pad".toList :=
  ⟨by decide, by decide, by decide, fun hat ↦ absurd hat (by decide)⟩

theorem resFolder_names : ∀ s ∈ ["res".toList, "a".toList], Name s := by
  intro s hs
  rcases List.mem_cons.mp hs with rfl | hs
  · exact ⟨by decide, by decide, by decide, by decide⟩
  · obtain rfl := List.mem_singleton.mp hs
    exact ⟨by decide, by decide, by decide, by decide⟩

theorem installed_stuck (dir : String) (t b : Path) : ¬Leads noText (installed dir) t b := by
  intro h
  have hmain := h.2.2
  simp only [mainTarget, Probing.value_bind, Probing.value_pure] at hmain
  obtain ⟨bytes, -, hmain⟩ := Option.bind_eq_some_iff.mp hmain
  obtain ⟨src, -, hmain⟩ := Option.bind_eq_some_iff.mp hmain
  cases hmain

theorem leftPad_right : Right noText (installed "/res") "left-pad".toList
    ["res".toList, "a".toList] := by
  refine (right_iff leftPad_bare resFolder_names).mpr ⟨by decide, 1, by decide, by decide, ?_, ?_⟩
  · exact ⟨_, .refl, .inr ⟨by decide +kernel, fun hno ↦ absurd (hno _ List.mem_cons_self)
      (by decide +kernel)⟩⟩
  · intro j hlow hhigh
    refine ⟨ends_of_stuck (installed_stuck _ _), fun hpasses ↦ ?_⟩
    rcases ReflTransGen.cases_head hpasses.1 with heq | ⟨b, hb, -⟩
    · have hlen := congrArg List.length heq
      have hlong : "/node_modules/".toList.length = 14 := by decide
      rw [inside, List.length_append, List.length_append, hlong, List.length_singleton] at hlen
      omega
    · exact installed_stuck _ _ _ hb

/-- What is installed in the root is not found there, for the path that is asked for has two slashes
at its start. -/
theorem root_not_right :
    Loadable noText (installed "") (inside "left-pad".toList (level ["res".toList, "a".toList] 0)) ∧
      (resolve noText (installed "") 4 "left-pad".toList "/res/a".toList).value =
        some (.error (.notFound "left-pad".toList)) ∧
      ¬Right noText (installed "") "left-pad".toList ["res".toList, "a".toList] := by
  refine ⟨⟨_, .refl, .inr ⟨by decide +kernel, fun hno ↦ absurd (hno _ List.mem_cons_self)
    (by decide +kernel)⟩⟩, by decide +kernel, fun h ↦ ?_⟩
  have hprobed := h.normal 4 "//node_modules/left-pad".toList (by decide +kernel)
  exact not_normal_slashes _ hprobed

end Example

end Aldivine.Node.Walking
