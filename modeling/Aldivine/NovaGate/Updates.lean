import Aldivine.Foundation.Decimals
import Aldivine.Foundation.Pieces
import Aldivine.Foundation.SemVer
import Mathlib.Data.Prod.Lex

namespace Aldivine.NovaGate.Updates

open Foundation.Numerals Foundation.Pieces Foundation.SemVer

inductive UpdateChannel
  | stable
  | beta
  | canary
  | development
deriving DecidableEq

def UpdateChannel.asStr : UpdateChannel → String
  | .stable => "stable"
  | .beta => "beta"
  | .canary => "canary"
  | .development => "development"

structure UpdateFile where
  path : String
  sha256Hex : String
  size : BitVec 64
  signatureHex : String
deriving DecidableEq

structure UpdateManifest where
  version : String
  channel : UpdateChannel
  minimumLauncherVersion : String
  files : List UpdateFile
  releaseNotes : String
deriving DecidableEq

inductive UpdateError
  | badSignature
  | belowMinimum (current minimum : String)
  | downgrade (current offered : String)
  | channelMismatch (manifest selected : String)
  | empty
deriving DecidableEq

/-- The part before the first plus sign, without a leading `v`, is read up to its third field. -/
def parseSemver (v : String) : Option (ℕ ×ₗ ℕ ×ₗ ℕ) := do
  let chars := match v.toList with
    | 'v' :: rest => rest
    | chars => chars
  let parts := (cut '+' chars).1.splitOn '.'
  let major ← parts[0]?.bind (parseUnsigned 64)
  let minor ← parseUnsigned 64 (parts[1]?.getD ['0'])
  let patch ← parseUnsigned 64 (parts[2]?.getD ['0'])
  return toLex (major, toLex (minor, patch))

/-- A version that cannot be read satisfies every minimum. -/
def satisfiesMinimum (current minimum : String) : Bool :=
  match parseSemver current, parseSemver minimum with
  | some c, some m => decide (m ≤ c)
  | _, _ => true

def isDowngrade (current offered : String) : Bool :=
  match parseSemver current, parseSemver offered with
  | some c, some o => decide (o < c)
  | _, _ => false

def validateUpdate (manifest : UpdateManifest) (current : String) (selected : UpdateChannel)
    (signatureOk : Bool) : Except UpdateError Unit :=
  if !signatureOk then .error .badSignature
  else if manifest.files.isEmpty then .error .empty
  else if manifest.channel.asStr ≠ selected.asStr then
    .error (.channelMismatch manifest.channel.asStr selected.asStr)
  else if !satisfiesMinimum current manifest.minimumLauncherVersion then
    .error (.belowMinimum current manifest.minimumLauncherVersion)
  else if isDowngrade current manifest.version then
    .error (.downgrade current manifest.version)
  else .ok ()

/-- A release whose numbers fit a machine word; only these are compared. -/
def Plain (v : Version) : Prop :=
  v.pre = [] ∧ v.major < 2 ^ 64 ∧ v.minor < 2 ^ 64 ∧ v.patch < 2 ^ 64

instance (v : Version) : Decidable (Plain v) :=
  inferInstanceAs (Decidable (v.pre = [] ∧ v.major < 2 ^ 64 ∧ v.minor < 2 ^ 64 ∧ v.patch < 2 ^ 64))

def numbers (v : Version) : ℕ ×ₗ ℕ ×ₗ ℕ := toLex (v.major, toLex (v.minor, v.patch))

variable {s t : String} {v w : Version}

/-- What a semantic version is made of, as far as `parseSemver` looks at it. -/
theorem parse_fields (h : parse s = some v) :
    ∃ major minor last more, number major = some v.major ∧ number minor = some v.minor ∧
      major <+: s.toList ∧ (cut '+' s.toList).1.splitOn '.' = major :: minor :: last :: more ∧
      (v.pre = [] ∧ number last = some v.patch ∨ v.pre ≠ [] ∧ '-' ∈ last) := by
  obtain ⟨-, hbuild⟩ := cut_eq '+' s.toList
  obtain ⟨-, hpre⟩ := cut_eq '-' (cut '+' s.toList).1
  have hmain : (cut '+' s.toList).1 <+: s.toList := by
    obtain ⟨-, hall⟩ | ⟨rest, -, hall⟩ := hbuild
    · exact ⟨[], by rw [hall, List.append_nil]⟩
    · exact ⟨_, hall⟩
  simp only [parse] at h
  split at h
  · rename_i major minor patch hcore
    simp only [Option.pure_def, Option.bind_eq_bind, Option.bind_eq_some_iff] at h
    obtain ⟨a, hmajor, b, hminor, c, hpatch, pre, hfields, build, -, hv⟩ := h
    cases hv
    have hfirst : major <+: (cut '-' (cut '+' s.toList).1).1 := by
      have hjoined := congrArg (['.'].intercalate ·) hcore
      simp only [List.intercalate_splitOn] at hjoined
      exact ⟨_, hjoined.symm⟩
    obtain ⟨hnone, hall⟩ | ⟨rest, hsome, hall⟩ := hpre
    · rw [hnone] at hfields
      cases hfields
      rw [hall] at hcore hfirst
      exact ⟨major, minor, patch, [], hmajor, hminor, hfirst.trans hmain, hcore, .inl ⟨rfl, hpatch⟩⟩
    · rw [hsome] at hfields
      cases hrest : rest.splitOn '.' with
      | nil => exact absurd hrest (List.splitOn_ne_nil _ _)
      | cons first more =>
        have hdash : ('-' :: rest).splitOn '.' = ('-' :: first) :: more := by
          rw [List.splitOn_cons_eq_if_modifyHead, hrest]
          rfl
        have hparts := @splitOn_append _ _ _ '.' [major, minor] _ _ _ _ _ hcore hdash
        rw [hall] at hparts
        refine ⟨major, minor, _, more, hmajor, hminor, ?_, hparts, .inr ⟨?_, by simp⟩⟩
        · exact hfirst.trans ((List.prefix_append _ _).trans (hall ▸ hmain))
        · rw [prerelease, hrest, List.mapM_cons] at hfields
          obtain ⟨i, -, hfields⟩ := Option.bind_eq_some_iff.mp hfields
          obtain ⟨is, -, hfields⟩ := Option.bind_eq_some_iff.mp hfields
          cases hfields
          exact List.cons_ne_nil _ _
  · cases h

theorem parseSemver_of_parse (h : parse s = some v) :
    parseSemver s = if Plain v then some (numbers v) else none := by
  obtain ⟨major, minor, last, more, hmajor, hminor, hstart, hparts, hlast⟩ := parse_fields h
  obtain ⟨hne, hdigits, hmajor⟩ := number_eq hmajor
  obtain ⟨hne', hdigits', hminor⟩ := number_eq hminor
  have hchars : (match s.toList with
      | 'v' :: rest => rest
      | chars => chars) = s.toList := by
    split
    · rename_i rest hs
      obtain ⟨c, chars, rfl⟩ := List.exists_cons_of_ne_nil hne
      rw [hs, List.cons_prefix_cons] at hstart
      rw [hstart.1] at hdigits
      simp [Char.isDigit] at hdigits
    · rfl
  have hpatch : parseUnsigned 64 last =
      if v.pre = [] ∧ v.patch < 2 ^ 64 then some v.patch else none := by
    obtain ⟨hpre, hpatch⟩ | ⟨hpre, hdash⟩ := hlast
    · obtain ⟨hne, hdigits, hpatch⟩ := number_eq hpatch
      rw [parseUnsigned_digits 64 hne hdigits, ← hpatch, hpre]
      simp only [true_and]
    · rw [parseUnsigned_eq_none hdash (by decide) (by decide), if_neg (fun h ↦ hpre h.1)]
  unfold parseSemver
  simp only [hchars, hparts, List.getElem?_cons_zero, List.getElem?_cons_succ, Option.bind_some,
    Option.getD_some, parseUnsigned_digits 64 hne hdigits, parseUnsigned_digits 64 hne' hdigits',
    ← hmajor, ← hminor, hpatch]
  by_cases hplain : Plain v
  · obtain ⟨hpre, hfirst, hsecond, hthird⟩ := hplain
    rw [if_pos hfirst, if_pos hsecond, if_pos ⟨hpre, hthird⟩,
      if_pos ⟨hpre, hfirst, hsecond, hthird⟩]
    rfl
  · rw [if_neg hplain, Option.eq_none_iff_forall_ne_some]
    intro x hx
    obtain ⟨a, ha, hx⟩ := Option.bind_eq_some_iff.mp hx
    obtain ⟨b, hb, hx⟩ := Option.bind_eq_some_iff.mp hx
    obtain ⟨c, hc, -⟩ := Option.bind_eq_some_iff.mp hx
    obtain ⟨⟨hpre, hthird⟩, -⟩ := Option.ite_none_right_eq_some.mp hc
    exact hplain ⟨hpre, (Option.ite_none_right_eq_some.mp ha).1,
      (Option.ite_none_right_eq_some.mp hb).1, hthird⟩

theorem numbers_lt (hv : v.pre = []) (hw : w.pre = []) :
    numbers v < numbers w ↔ w.precedence v = .gt := by
  unfold numbers Version.precedence
  rw [hv, hw, Prod.Lex.toLex_lt_toLex, Prod.Lex.toLex_lt_toLex, Ordering.then_eq_gt,
    Ordering.then_eq_gt, Ordering.then_eq_gt, Nat.compare_eq_gt, Nat.compare_eq_gt,
    Nat.compare_eq_gt, Nat.compare_eq_eq, Nat.compare_eq_eq, Nat.compare_eq_eq]
  simp [comparePre, eq_comm]

def Offered (manifest : UpdateManifest) (selected : UpdateChannel) (signatureOk : Bool) : Prop :=
  signatureOk = true ∧ manifest.files ≠ [] ∧ manifest.channel = selected

/-- `a` is above `b`, and both are versions that `parseSemver` reads. -/
def SeenHigher (a b : String) : Prop :=
  ∃ v w, parse a = some v ∧ parse b = some w ∧ v.precedence w = .gt ∧ Plain v ∧ Plain w

theorem satisfiesMinimum_eq (current minimum : String) :
    satisfiesMinimum current minimum = !isDowngrade minimum current := by
  unfold satisfiesMinimum isDowngrade
  cases parseSemver current with
  | none => cases parseSemver minimum <;> rfl
  | some c =>
    cases parseSemver minimum with
    | none => rfl
    | some m => simp [← not_lt]

theorem isDowngrade_iff (hv : parse s = some v) (hw : parse t = some w) :
    isDowngrade s t = true ↔ SeenHigher s t := by
  unfold isDowngrade
  rw [parseSemver_of_parse hv, parseSemver_of_parse hw]
  constructor
  · intro h
    split at h
    · rename_i c o hc ho
      obtain ⟨hplain, hc⟩ := Option.ite_none_right_eq_some.mp hc
      obtain ⟨hplain', ho⟩ := Option.ite_none_right_eq_some.mp ho
      cases hc
      cases ho
      rw [decide_eq_true_iff, numbers_lt hplain'.1 hplain.1] at h
      exact ⟨v, w, hv, hw, h, hplain, hplain'⟩
    · cases h
  · intro h
    obtain ⟨v', w', hv', hw', hgt, hplain, hplain'⟩ := h
    cases hv.symm.trans hv'
    cases hw.symm.trans hw'
    rw [if_pos hplain, if_pos hplain']
    exact decide_eq_true ((numbers_lt hplain'.1 hplain.1).mpr hgt)

theorem validateUpdate_ok {manifest : UpdateManifest} {selected : UpdateChannel}
    {signatureOk : Bool} :
    validateUpdate manifest s selected signatureOk = .ok () ↔
      Offered manifest selected signatureOk ∧
        isDowngrade manifest.minimumLauncherVersion s = false ∧
        isDowngrade s manifest.version = false := by
  have hchannel : manifest.channel.asStr = selected.asStr ↔ manifest.channel = selected := by
    cases manifest.channel <;> cases selected <;> decide
  unfold validateUpdate Offered
  rw [satisfiesMinimum_eq]
  split_ifs <;> simp_all

/-- An update below the installed version, or for a newer launcher, is refused exactly when one of
the versions out of order is seen to be. -/
theorem never_downgrades_iff (manifest : UpdateManifest) (current : String)
    (selected : UpdateChannel) (signatureOk : Bool) (hcurrent : (parse current).isSome)
    (hversion : (parse manifest.version).isSome)
    (hminimum : (parse manifest.minimumLauncherVersion).isSome) :
    (validateUpdate manifest current selected signatureOk = .ok () →
        ¬Higher current manifest.version ∧ ¬Higher manifest.minimumLauncherVersion current) ↔
      (Offered manifest selected signatureOk →
        Higher current manifest.version ∨ Higher manifest.minimumLauncherVersion current →
        SeenHigher current manifest.version ∨
          SeenHigher manifest.minimumLauncherVersion current) := by
  obtain ⟨v, hcurrent⟩ := Option.isSome_iff_exists.mp hcurrent
  obtain ⟨w, hversion⟩ := Option.isSome_iff_exists.mp hversion
  obtain ⟨m, hminimum⟩ := Option.isSome_iff_exists.mp hminimum
  rw [validateUpdate_ok, ← Bool.not_eq_true, ← Bool.not_eq_true,
    isDowngrade_iff hminimum hcurrent, isDowngrade_iff hcurrent hversion]
  constructor
  · intro h hoffered hhigher
    by_contra hseen
    rw [not_or] at hseen
    obtain ⟨hnot, hnot'⟩ := h ⟨hoffered, hseen.2, hseen.1⟩
    exact hhigher.elim hnot hnot'
  · intro h hok
    obtain ⟨hoffered, hseen, hseen'⟩ := hok
    rw [← not_or]
    exact fun hhigher ↦ (h hoffered hhigher).elim hseen' hseen

def launcherUpdate (version minimum : String) : UpdateManifest :=
  ⟨version, .stable, minimum, [⟨"NovaGate.exe", "ab", 7, "sig"⟩], ""⟩

theorem older_release_refused :
    validateUpdate (launcherUpdate "1.0.0" "1.0.0") "1.5.0" .stable true =
        .error (.downgrade "1.5.0" "1.0.0") ∧
      (validateUpdate (launcherUpdate "1.0.0" "1.0.0") "1.5.0" .stable true = .ok () →
        ¬Higher "1.5.0" "1.0.0" ∧ ¬Higher "1.0.0" "1.5.0") := by
  refine ⟨by decide +kernel, ?_⟩
  refine (never_downgrades_iff (launcherUpdate "1.0.0" "1.0.0") "1.5.0" .stable true
    (by decide +kernel) (by decide +kernel) (by decide +kernel)).mpr (fun _ _ ↦ .inl ?_)
  exact ⟨⟨1, 5, 0, [], []⟩, ⟨1, 0, 0, [], []⟩, by decide +kernel, by decide +kernel, by decide,
    by decide, by decide⟩

/-- A pre-release of an older version is installed. -/
theorem prerelease_installed :
    validateUpdate (launcherUpdate "1.0.0-alpha" "1.0.0") "1.2.0" .stable true = .ok () ∧
      Higher "1.2.0" "1.0.0-alpha" := by
  refine ⟨by decide +kernel, ⟨1, 2, 0, [], []⟩, ⟨1, 0, 0, [.text "alpha".toList], []⟩, ?_⟩
  exact ⟨by decide +kernel, by decide +kernel, by decide⟩

end Aldivine.NovaGate.Updates
