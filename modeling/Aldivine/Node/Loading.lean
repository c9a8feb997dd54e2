import Aldivine.Foundation.Graphs
import Aldivine.Node.Resolver

namespace Aldivine.Node.Loading

open Foundation.Chains Relation Resolver

section Probes

variable (fs : NodeFileSource)

def NoFile (base : Path) : Prop :=
  fs.read base = none ∧ ∀ e ∈ probeExts, fs.read (base ++ e.1) = none

def NoIndex (base : Path) : Prop :=
  ∀ e ∈ probeExts, fs.read (trimSlash base ++ "/index".toList ++ e.1) = none

variable {fs} {base stem : Path} {fromNodeModules : Bool}

theorem probe_none_iff {exts : List (Path × ResolveKind)} :
    (probe fs stem fromNodeModules exts).value = none ↔
      ∀ e ∈ exts, fs.read (stem ++ e.1) = none := by
  induction exts with
  | nil => exact iff_of_true rfl (List.forall_mem_nil _)
  | cons e exts ih =>
    rw [List.forall_mem_cons, ← ih, probe, Probing.value_bind, value_read]
    cases fs.read (stem ++ e.1) with
    | none => simp
    | some bytes => simp

theorem asFile_none_iff :
    (asFile fs base fromNodeModules).value = none ↔ NoFile fs base := by
  rw [asFile, Probing.value_bind, exactFile, Probing.value_bind, value_read, NoFile]
  cases fs.read base with
  | none => exact probe_none_iff.trans ⟨fun h ↦ ⟨rfl, h⟩, fun h ↦ h.2⟩
  | some bytes => exact iff_of_false (Option.some_ne_none _) (fun h ↦ Option.some_ne_none _ h.1)

theorem asIndex_none_iff :
    (asIndex fs base fromNodeModules).value = none ↔ NoIndex fs base := probe_none_iff

end Probes

section Chains

variable (fromStr : FromStr) (fs : NodeFileSource)

/-- A directory leads to what the main of its `package.json` names. -/
def Leads (a b : Path) : Prop :=
  NoFile fs a ∧ fs.isDir a = true ∧ (mainTarget fromStr fs a).value = some b

/-- Where one place leads to the next, there is a file or an index at the last or on the way. -/
def Loadable (t : Path) : Prop :=
  ∃ c, ReflTransGen (Leads fromStr fs) t c ∧ (¬NoFile fs c ∨ fs.isDir c = true ∧ ¬NoIndex fs c)

/-- What loading comes back with, once there is fuel enough. -/
def Loads (fromNodeModules : Bool) (t : Path) (found : Option Resolved) : Prop :=
  ∃ fuel, (loadAsFileOrDir fromStr fs fromNodeModules fuel t).value = some found

variable {fromStr fs} {fromNodeModules : Bool} {a b t : Path} {found : Option Resolved} {fuel : ℕ}

theorem leads_unique : Relator.RightUnique (Leads fromStr fs) := by
  intro a b c hab hac
  exact Option.some.inj (hab.2.2.symm.trans hac.2.2)

theorem load_file {r : Resolved} (h : (asFile fs t fromNodeModules).value = some r) :
    (loadAsFileOrDir fromStr fs fromNodeModules (fuel + 1) t).value = some (some r) := by
  rw [loadAsFileOrDir, Probing.value_bind, h]
  rfl

theorem load_missing (h : NoFile fs t) (hdir : fs.isDir t = false) :
    (loadAsFileOrDir fromStr fs fromNodeModules (fuel + 1) t).value = some none := by
  rw [loadAsFileOrDir, Probing.value_bind, asFile_none_iff.mpr h]
  simp only [Probing.value_bind, value_isDir, hdir]
  rfl

theorem load_index (h : NoFile fs t) (hdir : fs.isDir t = true)
    (hmain : (mainTarget fromStr fs t).value = none) :
    (loadAsFileOrDir fromStr fs fromNodeModules (fuel + 1) t).value =
      some (asIndex fs t fromNodeModules).value := by
  rw [loadAsFileOrDir, Probing.value_bind, asFile_none_iff.mpr h]
  simp only [Probing.value_bind, value_isDir, hdir, if_true, hmain]
  rfl

theorem load_main (h : Leads fromStr fs a b) :
    (loadAsFileOrDir fromStr fs fromNodeModules (fuel + 1) a).value =
      (loadAsFileOrDir fromStr fs fromNodeModules fuel b).value.map
        (fun found ↦ found.or (asIndex fs a fromNodeModules).value) := by
  obtain ⟨hfile, hdir, hmain⟩ := h
  rw [loadAsFileOrDir, Probing.value_bind, asFile_none_iff.mpr hfile]
  simp only [Probing.value_bind, value_isDir, hdir, if_true, hmain]
  cases (loadAsFileOrDir fromStr fs fromNodeModules fuel b).value with
  | none => rfl
  | some found =>
    cases found with
    | none => rfl
    | some r => rfl

theorem load_stuck (h : ∀ b, ¬Leads fromStr fs t b) :
    ∃ found, (∀ fuel, (loadAsFileOrDir fromStr fs fromNodeModules (fuel + 1) t).value = some found) ∧
      (found = none ↔ NoFile fs t ∧ (fs.isDir t = true → NoIndex fs t)) := by
  cases hfile : (asFile fs t fromNodeModules).value with
  | some r =>
    have hnot : ¬NoFile fs t := by
      rw [← @asFile_none_iff fs t fromNodeModules, hfile]
      exact Option.some_ne_none r
    exact ⟨some r, fun fuel ↦ load_file hfile, by simp [hnot]⟩
  | none =>
    have hno := asFile_none_iff.mp hfile
    cases hdir : fs.isDir t with
    | false => exact ⟨none, fun fuel ↦ load_missing hno hdir, by simp [hno]⟩
    | true =>
      cases hmain : (mainTarget fromStr fs t).value with
      | some b => exact absurd ⟨hno, hdir, hmain⟩ (h b)
      | none =>
        refine ⟨_, fun fuel ↦ load_index hno hdir hmain, ?_⟩
        rw [asIndex_none_iff]
        simp [hno]

theorem load_mono (h : (loadAsFileOrDir fromStr fs fromNodeModules fuel t).value = some found)
    (more : ℕ) : (loadAsFileOrDir fromStr fs fromNodeModules (fuel + more) t).value = some found := by
  induction fuel generalizing t found with
  | zero => cases h
  | succ fuel ih =>
    rw [Nat.add_right_comm]
    by_cases hleads : ∃ b, Leads fromStr fs t b
    · obtain ⟨b, hb⟩ := hleads
      rw [load_main hb, Option.map_eq_some_iff] at h ⊢
      obtain ⟨next, hnext, heq⟩ := h
      exact ⟨next, ih hnext, heq⟩
    · obtain ⟨other, hload, -⟩ := load_stuck (fun b hb ↦ hleads ⟨b, hb⟩)
      rw [hload] at h ⊢
      exact h

theorem Loads.unique {other : Option Resolved} (h : Loads fromStr fs fromNodeModules t found)
    (h' : Loads fromStr fs fromNodeModules t other) : found = other := by
  obtain ⟨fuel, hfuel⟩ := h
  obtain ⟨fuel', hfuel'⟩ := h'
  have hmore := load_mono hfuel fuel'
  rw [Nat.add_comm, load_mono hfuel' fuel] at hmore
  exact (Option.some.inj hmore).symm

theorem Loads.main (h : Leads fromStr fs a b) (hb : Loads fromStr fs fromNodeModules b found) :
    Loads fromStr fs fromNodeModules a (found.or (asIndex fs a fromNodeModules).value) := by
  obtain ⟨fuel, hfuel⟩ := hb
  exact ⟨fuel + 1, by rw [load_main h, hfuel, Option.map_some]⟩

/-- Loading comes back exactly where the chain of mains ends. -/
theorem loads_iff_ends :
    (∃ found, Loads fromStr fs fromNodeModules t found) ↔ Ends (Leads fromStr fs) t := by
  constructor
  · intro h
    obtain ⟨found, fuel, hfuel⟩ := h
    induction fuel generalizing t found with
    | zero => cases hfuel
    | succ fuel ih =>
      by_cases hleads : ∃ b, Leads fromStr fs t b
      · obtain ⟨b, hb⟩ := hleads
        rw [load_main hb, Option.map_eq_some_iff] at hfuel
        obtain ⟨next, hnext, -⟩ := hfuel
        exact (ih next hnext).head hb
      · exact ends_of_stuck (fun b hb ↦ hleads ⟨b, hb⟩)
  · intro h
    apply Ends.induct _ _ h
    · intro c hstuck
      obtain ⟨found, hload, -⟩ := load_stuck hstuck
      exact ⟨found, 1, hload 0⟩
    · intro a b hab _ ih
      obtain ⟨found, hfound⟩ := ih
      exact ⟨_, hfound.main hab⟩

theorem loadable_head (h : Leads fromStr fs a b) :
    Loadable fromStr fs a ↔ Loadable fromStr fs b ∨ ¬NoIndex fs a := by
  constructor
  · intro hloadable
    obtain ⟨c, hac, hfound⟩ := hloadable
    rcases ReflTransGen.cases_head hac with rfl | ⟨b', hab', hbc⟩
    · exact .inr (hfound.resolve_left (not_not.mpr h.1)).2
    · obtain rfl := leads_unique h hab'
      exact .inl ⟨c, hbc, hfound⟩
  · intro hloadable
    rcases hloadable with ⟨c, hbc, hfound⟩ | hindex
    · exact ⟨c, .head h hbc, hfound⟩
    · exact ⟨a, .refl, .inr ⟨h.2.1, hindex⟩⟩

theorem loadable_stuck (h : ∀ b, ¬Leads fromStr fs t b) :
    Loadable fromStr fs t ↔ ¬(NoFile fs t ∧ (fs.isDir t = true → NoIndex fs t)) := by
  constructor
  · intro hloadable hno
    obtain ⟨c, htc, hfound⟩ := hloadable
    rcases ReflTransGen.cases_head htc with rfl | ⟨b, htb, -⟩
    · rcases hfound with hfile | hindex
      · exact hfile hno.1
      · exact hindex.2 (hno.2 hindex.1)
    · exact h b htb
  · intro hnot
    refine ⟨t, .refl, ?_⟩
    by_cases hfile : NoFile fs t
    · have hindex : ¬(fs.isDir t = true → NoIndex fs t) := fun himp ↦ hnot ⟨hfile, himp⟩
      exact .inr (Classical.not_imp.mp hindex)
    · exact .inl hfile

theorem Loads.loadable (h : Loads fromStr fs fromNodeModules t found) :
    Loadable fromStr fs t ↔ found ≠ none := by
  have hends := loads_iff_ends.mp ⟨found, h⟩
  have hall : ∀ found, Loads fromStr fs fromNodeModules t found →
      (Loadable fromStr fs t ↔ found ≠ none) := by
    apply Ends.induct (P := fun t ↦ ∀ found, Loads fromStr fs fromNodeModules t found →
      (Loadable fromStr fs t ↔ found ≠ none)) _ _ hends
    · intro c hstuck found hfound
      obtain ⟨other, hload, hiff⟩ := @load_stuck fromStr fs fromNodeModules c hstuck
      rw [hfound.unique ⟨1, hload 0⟩, loadable_stuck hstuck, Ne, hiff]
    · intro a b hab hb ih found hfound
      obtain ⟨next, hnext⟩ := loads_iff_ends.mpr hb
      rw [hfound.unique (hnext.main hab), loadable_head hab, ih next hnext,
        ← @asIndex_none_iff fs a fromNodeModules]
      cases next with
      | none => simp
      | some r => simp
  exact hall found h

end Chains

end Aldivine.Node.Loading
