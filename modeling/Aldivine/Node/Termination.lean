import Aldivine.Node.Loading

namespace Aldivine.Node.Termination

open Foundation.Chains Foundation.Text Relation Resolver Loading

section Ancestors

variable {dir : Path}

def rank (dir : Path) : ℕ := if dir = ['/'] then 0 else dir.length + 1

theorem length_trimSlash_le (dir : Path) : (trimSlash dir).length ≤ dir.length := by
  unfold trimSlash
  split
  · rename_i h
    rw [h]
  · exact (List.rdropWhile_prefix (· == '/') dir).length_le

theorem rank_parentOf (dir : Path) : parentOf dir = dir ∨ rank (parentOf dir) < rank dir := by
  by_cases hroot : dir = ['/']
  · rw [hroot]
    exact .inl rfl
  refine .inr ?_
  have hpos : 0 < rank dir := by
    rw [rank, if_neg hroot]
    exact Nat.succ_pos _
  have hzero : rank ['/'] = 0 := rfl
  simp only [parentOf]
  split
  · rw [hzero]
    exact hpos
  · split
    · rw [hzero]
      exact hpos
    · rw [hzero]
      exact hpos
    · rename_i slash parent _ hdrop
      have hshort := (List.dropWhile_suffix (· ≠ '/') (l := (trimSlash dir).reverse)).length_le
      have htrim := length_trimSlash_le dir
      rw [hdrop, List.length_cons, List.length_reverse] at hshort
      have hle : rank parent.reverse ≤ parent.length + 1 := by
        rw [rank, List.length_reverse]
        split <;> omega
      have hrank : rank dir = dir.length + 1 := if_neg hroot
      omega

end Ancestors

section Walking

variable {fromStr : FromStr} {fs : NodeFileSource} {spec pkgName dir : Path} {rest : Option Path}
  {fuel rounds : ℕ} {answer : Except NodeError Resolved}

/-- Wherever the walk comes to, as long as it has found nothing, the chain of mains ends. -/
def WalkEnds (fromStr : FromStr) (fs : NodeFileSource) (pkgName : Path) (rest : Option Path)
    (dir : Path) : Prop :=
  ∀ n, (∀ m < n, ¬Loadable fromStr fs (targetIn pkgName rest (parentOf^[m] dir))) →
    Ends (Leads fromStr fs) (targetIn pkgName rest (parentOf^[n] dir))

theorem walk_found {r : Resolved}
    (h : (loadAsFileOrDir fromStr fs true fuel (targetIn pkgName rest dir)).value = some (some r)) :
    (walk fromStr fs fuel spec pkgName rest (rounds + 1) dir).value = some (.ok r) := by
  rw [walk, Probing.value_bind, h]
  rfl

theorem walk_up
    (h : (loadAsFileOrDir fromStr fs true fuel (targetIn pkgName rest dir)).value = some none) :
    (walk fromStr fs fuel spec pkgName rest (rounds + 1) dir).value =
      if parentOf dir = dir then some (.error (.notFound spec))
      else (walk fromStr fs fuel spec pkgName rest rounds (parentOf dir)).value := by
  rw [walk, Probing.value_bind, h]
  simp only
  split <;> rfl

theorem load_of_walk
    (h : (walk fromStr fs fuel spec pkgName rest (rounds + 1) dir).value = some answer) :
    ∃ found, (loadAsFileOrDir fromStr fs true fuel (targetIn pkgName rest dir)).value =
      some found := by
  cases hload : (loadAsFileOrDir fromStr fs true fuel (targetIn pkgName rest dir)).value with
  | some found => exact ⟨found, rfl⟩
  | none =>
    rw [walk, Probing.value_bind, hload] at h
    cases h

theorem walk_mono (h : (walk fromStr fs fuel spec pkgName rest rounds dir).value = some answer)
    (moreFuel moreRounds : ℕ) :
    (walk fromStr fs (fuel + moreFuel) spec pkgName rest (rounds + moreRounds) dir).value =
      some answer := by
  induction rounds generalizing dir with
  | zero => cases h
  | succ rounds ih =>
    obtain ⟨found, hload⟩ := load_of_walk h
    rw [Nat.add_right_comm]
    cases found with
    | some r =>
      rw [walk_found hload] at h
      rw [walk_found (load_mono hload moreFuel), h]
    | none =>
      rw [walk_up hload] at h
      rw [walk_up (load_mono hload moreFuel)]
      split
      · rename_i htop
        rwa [if_pos htop] at h
      · rename_i htop
        rw [if_neg htop] at h
        exact ih h

theorem walkEnds_up (h : WalkEnds fromStr fs pkgName rest dir)
    (hnot : ¬Loadable fromStr fs (targetIn pkgName rest dir)) :
    WalkEnds fromStr fs pkgName rest (parentOf dir) := by
  intro n hn
  have hends := h (n + 1) (fun m hm ↦ ?_)
  · rwa [Function.iterate_succ_apply] at hends
  cases m with
  | zero => exact hnot
  | succ m =>
    rw [Function.iterate_succ_apply]
    exact hn m (Nat.lt_of_succ_lt_succ hm)

theorem walk_returns (h : WalkEnds fromStr fs pkgName rest dir) :
    ∃ fuel rounds answer,
      (walk fromStr fs fuel spec pkgName rest rounds dir).value = some answer := by
  induction hrank : rank dir using Nat.strong_induction_on generalizing dir with
  | _ n ih =>
    have hends := h 0 (fun m hm ↦ absurd hm (Nat.not_lt_zero m))
    obtain ⟨found, fuel, hload⟩ := (@loads_iff_ends fromStr fs true _).mpr hends
    rw [Function.iterate_zero_apply] at hload
    cases found with
    | some r => exact ⟨fuel, 1, _, walk_found hload⟩
    | none =>
      by_cases htop : parentOf dir = dir
      · exact ⟨fuel, 1, _, by rw [walk_up hload, if_pos htop]⟩
      have hnot : ¬Loadable fromStr fs (targetIn pkgName rest dir) := by
        have hloads : Loads fromStr fs true (targetIn pkgName rest dir) none := ⟨fuel, hload⟩
        exact fun hloadable ↦ hloads.loadable.mp hloadable rfl
      have hlt := (rank_parentOf dir).resolve_left htop
      obtain ⟨fuel', rounds, answer, hwalk⟩ := ih _ (hrank ▸ hlt) (walkEnds_up h hnot) rfl
      refine ⟨fuel + fuel', rounds + 1, answer, ?_⟩
      rw [walk_up (load_mono hload fuel'), if_neg htop, Nat.add_comm fuel]
      exact walk_mono hwalk fuel 0

theorem walkEnds_of_walk
    (h : (walk fromStr fs fuel spec pkgName rest rounds dir).value = some answer) :
    WalkEnds fromStr fs pkgName rest dir := by
  induction rounds generalizing dir with
  | zero => cases h
  | succ rounds ih =>
    obtain ⟨found, hload⟩ := load_of_walk h
    have hloads : Loads fromStr fs true (targetIn pkgName rest dir) found := ⟨fuel, hload⟩
    have hhere := loads_iff_ends.mp ⟨found, hloads⟩
    intro n hn
    cases n with
    | zero => exact hhere
    | succ n =>
      have hnone : found = none := by
        by_contra hsome
        exact hn 0 (Nat.succ_pos n) (hloads.loadable.mpr hsome)
      rw [hnone] at hload
      rw [walk_up hload] at h
      by_cases htop : parentOf dir = dir
      · rw [Function.iterate_fixed htop]
        exact hhere
      · rw [if_neg htop] at h
        rw [Function.iterate_succ_apply]
        refine ih h n (fun m hm ↦ ?_)
        rw [← Function.iterate_succ_apply]
        exact hn (m + 1) (Nat.succ_lt_succ hm)

theorem answer_of_walk
    (h : (walk fromStr fs fuel spec pkgName rest rounds dir).value = some answer) :
    (∃ r, answer = .ok r) ∨ answer = .error (.notFound spec) := by
  induction rounds generalizing dir with
  | zero => cases h
  | succ rounds ih =>
    obtain ⟨found, hload⟩ := load_of_walk h
    cases found with
    | some r =>
      rw [walk_found hload] at h
      exact .inl ⟨r, (Option.some.inj h).symm⟩
    | none =>
      rw [walk_up hload] at h
      split at h
      · exact .inr (Option.some.inj h).symm
      · exact ih h

end Walking

section Resolving

variable {fromStr : FromStr} {fs : NodeFileSource} {spec fromDir : Path}

/-- What resolving comes to load, if nothing was found before. -/
inductive Tried (fromStr : FromStr) (fs : NodeFileSource) (spec fromDir : Path) : Path → Prop
  | file (hspec : spec ≠ []) (hfile : (isRelative spec || isAbsolute spec) = true) :
      Tried fromStr fs spec fromDir (if isAbsolute spec then spec else join fromDir spec)
  | package (hspec : spec ≠ []) (hbare : (isRelative spec || isAbsolute spec) = false)
      (pkgName : Path) (rest : Option Path) (hpackage : packageOf spec = some (pkgName, rest))
      (hname : pkgName ≠ []) (n : ℕ)
      (hmissing : ∀ m < n, ¬Loadable fromStr fs (targetIn pkgName rest (parentOf^[m] fromDir))) :
      Tried fromStr fs spec fromDir (targetIn pkgName rest (parentOf^[n] fromDir))

/-- Resolving comes back with a module or says that there is none. -/
def Returns (fromStr : FromStr) (fs : NodeFileSource) (spec fromDir : Path) : Prop :=
  ∃ fuel answer, (resolve fromStr fs fuel spec fromDir).value = some answer ∧
    ((∃ r, answer = .ok r) ∨ answer = .error (.notFound spec))

theorem resolve_file {fuel : ℕ} (hspec : spec ≠ [])
    (hfile : (isRelative spec || isAbsolute spec) = true) :
    (resolve fromStr fs fuel spec fromDir).value =
      (loadAsFileOrDir fromStr fs false fuel
        (if isAbsolute spec then spec else join fromDir spec)).value.map
          (·.elim (.error (.notFound spec)) .ok) := by
  rw [resolve, if_neg hspec, if_pos hfile]
  rfl

theorem resolve_package {fuel : ℕ} {pkgName : Path} {rest : Option Path} (hspec : spec ≠ [])
    (hbare : (isRelative spec || isAbsolute spec) = false)
    (hpackage : packageOf spec = some (pkgName, rest)) (hname : pkgName ≠ []) :
    resolve fromStr fs fuel spec fromDir = walk fromStr fs fuel spec pkgName rest fuel fromDir := by
  rw [resolve, if_neg hspec, hbare, if_neg Bool.false_ne_true, hpackage]
  simp only [if_neg hname]

theorem resolve_refused {fuel : ℕ}
    (h : spec = [] ∨ (isRelative spec || isAbsolute spec) = false ∧
      ∀ pkgName rest, packageOf spec = some (pkgName, rest) → pkgName = []) :
    (resolve fromStr fs fuel spec fromDir).value = some (.error (.notFound spec)) := by
  by_cases hspec : spec = []
  · rw [resolve, if_pos hspec]
    rfl
  · obtain ⟨hbare, hnone⟩ := h.resolve_left hspec
    rw [resolve, if_neg hspec, hbare, if_neg Bool.false_ne_true]
    cases hpackage : packageOf spec with
    | none => rfl
    | some package =>
      obtain ⟨pkgName, rest⟩ := package
      simp only [if_pos (hnone pkgName rest hpackage)]
      rfl

theorem returns_file_iff (hspec : spec ≠ [])
    (hfile : (isRelative spec || isAbsolute spec) = true) :
    Returns fromStr fs spec fromDir ↔
      Ends (Leads fromStr fs) (if isAbsolute spec then spec else join fromDir spec) := by
  rw [← @loads_iff_ends fromStr fs false]
  constructor
  · intro h
    obtain ⟨fuel, answer, hvalue, -⟩ := h
    rw [resolve_file hspec hfile, Option.map_eq_some_iff] at hvalue
    obtain ⟨found, hload, -⟩ := hvalue
    exact ⟨found, fuel, hload⟩
  · intro h
    obtain ⟨found, fuel, hload⟩ := h
    refine ⟨fuel, _, by rw [resolve_file hspec hfile, hload, Option.map_some], ?_⟩
    cases found with
    | none => exact .inr rfl
    | some r => exact .inl ⟨r, rfl⟩

theorem returns_package_iff {pkgName : Path} {rest : Option Path} (hspec : spec ≠ [])
    (hbare : (isRelative spec || isAbsolute spec) = false)
    (hpackage : packageOf spec = some (pkgName, rest)) (hname : pkgName ≠ []) :
    Returns fromStr fs spec fromDir ↔ WalkEnds fromStr fs pkgName rest fromDir := by
  constructor
  · intro h
    obtain ⟨fuel, answer, hvalue, -⟩ := h
    rw [resolve_package hspec hbare hpackage hname] at hvalue
    exact walkEnds_of_walk hvalue
  · intro h
    obtain ⟨fuel, rounds, answer, hwalk⟩ := @walk_returns fromStr fs spec pkgName fromDir rest h
    have hmore := walk_mono hwalk rounds fuel
    rw [Nat.add_comm rounds] at hmore
    refine ⟨fuel + rounds, answer, ?_, answer_of_walk hwalk⟩
    rw [resolve_package hspec hbare hpackage hname, hmore]

theorem returns_iff_ends : Returns fromStr fs spec fromDir ↔
    ∀ t, Tried fromStr fs spec fromDir t → Ends (Leads fromStr fs) t := by
  by_cases hspec : spec = []
  · refine iff_of_true ⟨0, _, resolve_refused (.inl hspec), .inr rfl⟩ (fun t ht ↦ ?_)
    cases ht with
    | file hne => exact absurd hspec hne
    | package hne => exact absurd hspec hne
  cases hfile : isRelative spec || isAbsolute spec with
  | true =>
    rw [returns_file_iff hspec hfile]
    constructor
    · intro hends t ht
      cases ht with
      | file => exact hends
      | package _ hbare => rw [hfile] at hbare; cases hbare
    · exact fun h ↦ h _ (.file hspec hfile)
  | false =>
    by_cases hnone : ∀ pkgName rest, packageOf spec = some (pkgName, rest) → pkgName = []
    · refine iff_of_true ⟨0, _, resolve_refused (.inr ⟨hfile, hnone⟩), .inr rfl⟩ (fun t ht ↦ ?_)
      cases ht with
      | file _ hfile' => rw [hfile] at hfile'; cases hfile'
      | package _ _ pkgName rest hpackage hname => exact absurd (hnone _ _ hpackage) hname
    · push Not at hnone
      obtain ⟨pkgName, rest, hpackage, hname⟩ := hnone
      rw [returns_package_iff hspec hfile hpackage hname]
      constructor
      · intro hends t ht
        cases ht with
        | file _ hfile' => rw [hfile] at hfile'; cases hfile'
        | package _ _ pkgName' rest' hpackage' _ n hmissing =>
          rw [hpackage] at hpackage'
          cases hpackage'
          exact hends n hmissing
      · exact fun h n hmissing ↦ h _ (.package hspec hfile pkgName rest hpackage hname n hmissing)

/-- With finitely many directories, resolving comes back exactly where nothing that it comes to load
leads to a directory whose main leads back to it. -/
theorem returns_iff (hfin : {dir | fs.isDir dir = true}.Finite) : Returns fromStr fs spec fromDir ↔
    ∀ t, Tried fromStr fs spec fromDir t → ¬Circles (Leads fromStr fs) t := by
  have hleads : {a | ∃ b, Leads fromStr fs a b}.Finite := by
    refine hfin.subset (fun a ha ↦ ?_)
    obtain ⟨b, hb⟩ := ha
    exact hb.2.1
  rw [returns_iff_ends]
  exact forall_congr' (fun t ↦ imp_congr_right (fun _ ↦ ends_iff leads_unique hleads))

end Resolving

section Example

def packageText (main : String) : String :=
  "\x7b\"name\":\"a\",\"main\":\"" ++ main ++ "\"\x7d"

def twoTexts : FromStr := fun text ↦
  if text = packageText "." then .ok ⟨"a", some "."⟩
  else if text = packageText "lib" then .ok ⟨"a", some "lib"⟩
  else .error "expected value at line 1 column 1"

def packaged (main : String) : NodeFileSource where
  read p :=
    if p = "/a/package.json".toList then some (utf8 (packageText main))
    else if p = "/a/lib/index.js".toList then some []
    else none
  isDir p := p = "/a".toList || p = "/a/lib".toList

theorem packaged_finite (main : String) :
    {dir | (packaged main).isDir dir = true}.Finite := by
  refine (Set.toFinite {"/a".toList, "/a/lib".toList}).subset (fun p hp ↦ ?_)
  rcases Bool.or_eq_true_iff.mp hp with hp | hp
  · exact .inl (of_decide_eq_true hp)
  · exact .inr (of_decide_eq_true hp)

theorem lib_returns : Returns twoTexts (packaged "lib") "/a".toList "/".toList := by
  refine (returns_iff (packaged_finite "lib")).mpr (fun t ht ↦ ?_)
  have hlib : ∀ b, ¬Leads twoTexts (packaged "lib") "/a/lib".toList b := by
    intro b hb
    have hnone : (mainTarget twoTexts (packaged "lib") "/a/lib".toList).value = none := by
      decide +kernel
    have hmain := hb.2.2
    rw [hnone] at hmain
    cases hmain
  have hleads : Leads twoTexts (packaged "lib") "/a".toList "/a/lib".toList :=
    ⟨⟨by decide, by decide⟩, by decide, by decide +kernel⟩
  cases ht with
  | file => exact ((ends_of_stuck hlib).head hleads).not_circles leads_unique
  | package _ hbare => exact absurd hbare (by decide)

/-- The main of a package is the package itself. -/
theorem dot_not_returns : ¬Returns twoTexts (packaged ".") "/a".toList "/".toList := by
  intro h
  have hleads : Leads twoTexts (packaged ".") "/a".toList "/a".toList :=
    ⟨⟨by decide, by decide⟩, by decide, by decide +kernel⟩
  have hends := returns_iff_ends.mp h "/a".toList (.file (by decide) (by decide))
  exact hends.not_circles leads_unique ⟨_, .refl, .single hleads⟩

end Example

end Aldivine.Node.Termination
