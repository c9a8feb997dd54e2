import Aldivine.Foundation.Decimals
import Aldivine.Foundation.Execution
import Aldivine.Foundation.Table
import Mathlib.Data.Prod.Lex

namespace Aldivine.Negotiation.Builds

open Foundation.Numerals Foundation.Execution Foundation.Table

inductive GameEdition
  | legacy
  | enhanced
deriving DecidableEq

def GameEdition.asStr : GameEdition → String
  | .legacy => "legacy"
  | .enhanced => "enhanced"

structure EditionProfile where
  edition : GameEdition
  supported : Bool
  note : String
deriving DecidableEq

structure GameBuild where
  number : BitVec 32
  edition : GameEdition
  minAstryn : String
  blocked : Option String
  note : String
deriving DecidableEq

inductive BuildAssessment
  | supported (build : GameBuild)
  | requiresAstrynUpdate (build : GameBuild) (minAstryn : String)
  | blocked (build : GameBuild) (reason : String)
  | unknownBuild (edition : GameEdition) (number : BitVec 32)
  | unsupportedEdition (edition : GameEdition) (note : String)
deriving DecidableEq

def BuildAssessment.admittable : BuildAssessment → Bool
  | .supported _ => true
  | _ => false

inductive BuildError
  | badAstrynVersion (version : String)
deriving DecidableEq

def parseTriple (s : String) : Option (ℕ ×ₗ ℕ ×ₗ ℕ) :=
  match s.toList.splitOn '.' with
  | [major, minor, patch] => do
    let major ← parseUnsigned 64 major
    let minor ← parseUnsigned 64 minor
    let patch ← parseUnsigned 64 patch
    return toLex (major, toLex (minor, patch))
  | _ => none

structure BuildRegistry where
  builds : AList (fun _ : GameEdition × BitVec 32 ↦ GameBuild)
  profiles : AList (fun _ : GameEdition ↦ EditionProfile)

namespace BuildRegistry

def new : BuildRegistry := ⟨∅, ∅⟩

def setProfile (r : BuildRegistry) (profile : EditionProfile) : BuildRegistry :=
  { r with profiles := r.profiles.insert profile.edition profile }

def add (r : BuildRegistry) (build : GameBuild) : BuildRegistry × Except BuildError Unit :=
  if build.minAstryn ≠ "" ∧ parseTriple build.minAstryn = none then
    (r, .error (.badAstrynVersion build.minAstryn))
  else ({ r with builds := r.builds.insert (build.edition, build.number) build }, .ok ())

/-- `none` where the code panics: the minimum of a build in the registry cannot be read. -/
def assess (r : BuildRegistry) (edition : GameEdition) (number : BitVec 32)
    (astrynVersion : String) : Option BuildAssessment :=
  match r.profiles.lookup edition with
  | none => some (.unsupportedEdition edition "edition not declared")
  | some profile =>
    if !profile.supported then some (.unsupportedEdition edition profile.note)
    else
      match r.builds.lookup (edition, number) with
      | none => some (.unknownBuild edition number)
      | some build =>
        match build.blocked with
        | some reason => some (.blocked build reason)
        | none =>
          if build.minAstryn = "" then some (.supported build)
          else
            match parseTriple build.minAstryn with
            | none => none
            | some min =>
              match parseTriple astrynVersion with
              | none => some (.requiresAstrynUpdate build build.minAstryn)
              | some client =>
                if min ≤ client then some (.supported build)
                else some (.requiresAstrynUpdate build build.minAstryn)

end BuildRegistry

structure EmergencyPin where
  edition : GameEdition
  allowPin : Bool
  lastGoodBuild : BitVec 32
deriving DecidableEq

inductive PinOutcome
  | refused (edition : GameEdition) (number : BitVec 32) (reason : String)
  | pinned (edition : GameEdition) (number asBuild : BitVec 32) (warning : String)
deriving DecidableEq

def pinWarning (edition : GameEdition) (number asBuild : BitVec 32) : String :=
  "Unrecognized " ++ edition.asStr ++ " build " ++ toString number.toNat ++
    "; running under last-known-good profile " ++ toString asBuild.toNat ++
    ". Update Aldivine for full support."

def applyEmergencyPolicy (assessment : BuildAssessment) (pin : EmergencyPin)
    (registry : BuildRegistry) : Option PinOutcome :=
  match assessment with
  | .unknownBuild edition number =>
    if !pin.allowPin ∨ pin.edition ≠ edition then
      some (.refused edition number "Game build not recognized by this server.")
    else
      match registry.builds.lookup (edition, pin.lastGoodBuild) with
      | some _ => some (.pinned edition number pin.lastGoodBuild
          (pinWarning edition number pin.lastGoodBuild))
      | none => some (.refused edition number
          "Game build not recognized and no safe fallback is configured.")
  | _ => none

inductive Change
  | setProfile (profile : EditionProfile)
  | add (build : GameBuild)
deriving DecidableEq

def change (r : BuildRegistry) : Change → BuildRegistry × Except BuildError Unit
  | .setProfile profile => (r.setProfile profile, .ok ())
  | .add build => r.add build

def profileOf (edition : GameEdition) (changes : List Change) : Option EditionProfile :=
  latest (fun c ↦
    match c with
    | .setProfile profile => if profile.edition = edition then some profile else none
    | .add _ => none) changes

def buildOf (edition : GameEdition) (number : BitVec 32) (changes : List Change) :
    Option GameBuild :=
  latest (fun c ↦
    match c with
    | .setProfile _ => none
    | .add build =>
      if (edition, number) = (build.edition, build.number) ∧
          (build.minAstryn = "" ∨ (parseTriple build.minAstryn).isSome) then some build
      else none) changes

def Admits (changes : List Change) (edition : GameEdition) (number : BitVec 32)
    (astrynVersion : String) : Prop :=
  ∃ profile build, profileOf edition changes = some profile ∧ profile.supported = true ∧
    buildOf edition number changes = some build ∧ build.blocked = none ∧
    (build.minAstryn = "" ∨ ∃ min client, parseTriple build.minAstryn = some min ∧
      parseTriple astrynVersion = some client ∧ min ≤ client)

/-- The client plays under another build, which the operator has pinned its edition to. -/
def Pins (changes : List Change) (edition : GameEdition) (number : BitVec 32)
    (pin : EmergencyPin) : Prop :=
  ∃ profile, profileOf edition changes = some profile ∧ profile.supported = true ∧
    buildOf edition number changes = none ∧ pin.allowPin = true ∧ pin.edition = edition ∧
    (buildOf edition pin.lastGoodBuild changes).isSome

variable {r : BuildRegistry} {changes : List Change} {edition : GameEdition} {number : BitVec 32}
  {astrynVersion : String} {build : GameBuild} {pin : EmergencyPin}

theorem profiles_run (edition : GameEdition) (changes : List Change) :
    (run change .new changes).profiles.lookup edition = profileOf edition changes := by
  induction changes using List.reverseRecOn with
  | nil => rfl
  | append_singleton changes c ih =>
    rw [run_concat, profileOf, latest_concat, ← profileOf, ← ih]
    cases c with
    | setProfile profile =>
      refine (lookup_insert_ite ..).trans ?_
      dsimp only
      by_cases hedition : edition = profile.edition
      · rw [if_pos hedition, if_pos hedition.symm]
        rfl
      · rw [if_neg hedition, if_neg (Ne.symm hedition)]
        rfl
    | add build =>
      dsimp only [change, BuildRegistry.add]
      split <;> rfl

theorem builds_run (edition : GameEdition) (number : BitVec 32) (changes : List Change) :
    (run change .new changes).builds.lookup (edition, number) = buildOf edition number changes := by
  induction changes using List.reverseRecOn with
  | nil => rfl
  | append_singleton changes c ih =>
    rw [run_concat, buildOf, latest_concat, ← buildOf, ← ih]
    cases c with
    | setProfile profile => rfl
    | add build =>
      dsimp only [change, BuildRegistry.add]
      by_cases hbad : build.minAstryn ≠ "" ∧ parseTriple build.minAstryn = none
      · have hunread : ¬(build.minAstryn = "" ∨ (parseTriple build.minAstryn).isSome) := by
          rw [hbad.2]
          simpa using hbad.1
        rw [if_pos hbad, if_neg (fun h ↦ hunread h.2)]
        rfl
      · have hread : build.minAstryn = "" ∨ (parseTriple build.minAstryn).isSome := by
          rwa [not_and_or, ne_eq, not_not, ← ne_eq, Option.ne_none_iff_isSome] at hbad
        rw [if_neg hbad]
        refine (lookup_insert_ite ..).trans ?_
        by_cases hkey : (edition, number) = (build.edition, build.number)
        · rw [if_pos hkey, if_pos ⟨hkey, hread⟩]
          rfl
        · rw [if_neg hkey, if_neg (fun h ↦ hkey h.1)]
          rfl

theorem readable_of_buildOf (h : buildOf edition number changes = some build) :
    build.minAstryn = "" ∨ ∃ min, parseTriple build.minAstryn = some min := by
  obtain ⟨c, -, hc⟩ := List.exists_of_findSome?_eq_some h
  cases c with
  | setProfile profile => cases hc
  | add build =>
    dsimp only at hc
    split_ifs at hc with hentered
    cases hc
    exact hentered.2.imp id Option.isSome_iff_exists.mp

section Assessments

variable {profile : EditionProfile}

theorem assess_undeclared (h : r.profiles.lookup edition = none) :
    r.assess edition number astrynVersion =
      some (.unsupportedEdition edition "edition not declared") := by
  simp only [BuildRegistry.assess, h]

theorem assess_unsupported (h : r.profiles.lookup edition = some profile)
    (hsupported : profile.supported = false) :
    r.assess edition number astrynVersion = some (.unsupportedEdition edition profile.note) := by
  simp only [BuildRegistry.assess, h, hsupported, Bool.not_false, if_true]

theorem assess_unknown (h : r.profiles.lookup edition = some profile)
    (hsupported : profile.supported = true) (hbuild : r.builds.lookup (edition, number) = none) :
    r.assess edition number astrynVersion = some (.unknownBuild edition number) := by
  simp only [BuildRegistry.assess, h, hsupported, hbuild, Bool.not_true, Bool.false_eq_true,
    if_false]

theorem assess_known (astrynVersion : String) (h : r.profiles.lookup edition = some profile)
    (hsupported : profile.supported = true)
    (hbuild : r.builds.lookup (edition, number) = some build)
    (hread : build.minAstryn = "" ∨ ∃ min, parseTriple build.minAstryn = some min) :
    ∃ a, r.assess edition number astrynVersion = some a ∧
      (∀ edition number, a ≠ .unknownBuild edition number) ∧
      (a.admittable = true ↔ build.blocked = none ∧
        (build.minAstryn = "" ∨ ∃ min client, parseTriple build.minAstryn = some min ∧
          parseTriple astrynVersion = some client ∧ min ≤ client)) := by
  cases hblocked : build.blocked with
  | some reason =>
    refine ⟨.blocked build reason, ?_, fun _ _ h ↦ (by cases h),
      by simp [BuildAssessment.admittable]⟩
    simp [BuildRegistry.assess, h, hsupported, hbuild, hblocked]
  | none =>
    by_cases hempty : build.minAstryn = ""
    · refine ⟨.supported build, ?_, fun _ _ h ↦ (by cases h),
        by simp [BuildAssessment.admittable, hempty]⟩
      simp [BuildRegistry.assess, h, hsupported, hbuild, hblocked, hempty]
    · obtain ⟨min, hmin⟩ := hread.resolve_left hempty
      cases hclient : parseTriple astrynVersion with
      | none =>
        refine ⟨.requiresAstrynUpdate build build.minAstryn, ?_, fun _ _ h ↦ (by cases h),
          by simp [BuildAssessment.admittable, hempty]⟩
        simp [BuildRegistry.assess, h, hsupported, hbuild, hblocked, hempty, hmin, hclient]
      | some client =>
        by_cases hle : min ≤ client
        · refine ⟨.supported build, ?_, fun _ _ h ↦ (by cases h),
            by simp [BuildAssessment.admittable, hmin, hle]⟩
          simp [BuildRegistry.assess, h, hsupported, hbuild, hblocked, hempty, hmin, hclient, hle]
        · refine ⟨.requiresAstrynUpdate build build.minAstryn, ?_, fun _ _ h ↦ (by cases h),
            by simp [BuildAssessment.admittable, hempty, hmin, hle]⟩
          simp [BuildRegistry.assess, h, hsupported, hbuild, hblocked, hempty, hmin, hclient, hle]

theorem applyEmergencyPolicy_known {a : BuildAssessment}
    (h : ∀ edition number, a ≠ .unknownBuild edition number) :
    applyEmergencyPolicy a pin r = none := by
  unfold applyEmergencyPolicy
  split
  · exact absurd rfl (h _ _)
  · rfl

theorem pinned_iff : applyEmergencyPolicy (.unknownBuild edition number) pin r =
      some (.pinned edition number pin.lastGoodBuild
        (pinWarning edition number pin.lastGoodBuild)) ↔
    pin.allowPin = true ∧ pin.edition = edition ∧
      (r.builds.lookup (edition, pin.lastGoodBuild)).isSome := by
  dsimp only [applyEmergencyPolicy]
  split_ifs with hrefused
  · rcases hrefused with hclosed | hedition
    · rw [Bool.not_eq_true'] at hclosed
      simp [hclosed]
    · simp [hedition]
  · rw [not_or, Bool.not_eq_true, Bool.not_eq_false', not_not] at hrefused
    cases r.builds.lookup (edition, pin.lastGoodBuild) with
    | none => simp
    | some build => simp [hrefused]

end Assessments

/-- Whatever the registry was told, a client is assessed without a panic. It is admitted exactly as
`Admits` says, and exactly as `Pins` says it plays under the pinned build instead, which is one
that was entered for its edition. -/
theorem let_in_iff (changes : List Change) (edition : GameEdition) (number : BitVec 32)
    (astrynVersion : String) (pin : EmergencyPin) :
    ∃ a, (run change .new changes).assess edition number astrynVersion = some a ∧
      (a.admittable = true ↔ Admits changes edition number astrynVersion) ∧
      (applyEmergencyPolicy a pin (run change .new changes) =
          some (.pinned edition number pin.lastGoodBuild
            (pinWarning edition number pin.lastGoodBuild)) ↔ Pins changes edition number pin) := by
  have hprofiles := profiles_run edition changes
  have hbuilds (number : BitVec 32) := builds_run edition number changes
  generalize run change .new changes = r at hprofiles hbuilds ⊢
  cases hprofile : profileOf edition changes with
  | none =>
    rw [hprofile] at hprofiles
    refine ⟨_, assess_undeclared hprofiles, ?_, ?_⟩
    · simp [BuildAssessment.admittable, Admits, hprofile]
    · simp [applyEmergencyPolicy, Pins, hprofile]
  | some profile =>
    rw [hprofile] at hprofiles
    cases hsupported : profile.supported with
    | false =>
      refine ⟨_, assess_unsupported hprofiles hsupported, ?_, ?_⟩
      · simp [BuildAssessment.admittable, Admits, hprofile, hsupported]
      · simp [applyEmergencyPolicy, Pins, hprofile, hsupported]
    | true =>
      cases hbuild : buildOf edition number changes with
      | none =>
        refine ⟨_, assess_unknown hprofiles hsupported ((hbuilds number).trans hbuild), ?_, ?_⟩
        · simp [BuildAssessment.admittable, Admits, hbuild]
        · rw [pinned_iff, hbuilds]
          simp [Pins, hprofile, hsupported, hbuild]
      | some build =>
        obtain ⟨a, ha, hknown, hadmits⟩ := assess_known astrynVersion hprofiles hsupported
          ((hbuilds number).trans hbuild) (readable_of_buildOf hbuild)
        refine ⟨a, ha, hadmits.trans ?_, ?_⟩
        · simp [Admits, hprofile, hsupported, hbuild]
        · rw [applyEmergencyPolicy_known hknown]
          simp [Pins, hbuild]

end Aldivine.Negotiation.Builds
