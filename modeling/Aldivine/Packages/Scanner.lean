import Aldivine.Packages.Model
import Aldivine.Security.Hosts
import Mathlib.Algebra.Order.BigOperators.Group.List
import Mathlib.Data.List.Perm.Subperm

namespace Aldivine.Packages.Scanner

open Foundation.Text Model
open Security.Hosts (lower of_toLower)

inductive Severity
  | info
  | low
  | medium
  | high
  | critical
deriving DecidableEq

inductive FindingCategory
  | nativeExtension
  | sandboxViolation
  | obfuscation
  | excessiveCapability
  | revokedEntity
  | metadataAnomaly
deriving DecidableEq

structure Finding where
  category : FindingCategory
  severity : Severity
  message : String
  filePath : Option String
deriving DecidableEq

inductive PublisherReputation
  | blacklisted
  | suspicious
  | standard
  | verified
  | trusted
deriving DecidableEq

inductive ScanVerdict
  | approved
  | flaggedForReview
  | quarantined
  | rejected
deriving DecidableEq

structure ScanReport where
  packageId : String
  publisherId : String
  riskScore : ℕ
  findings : List Finding
  verdict : ScanVerdict
deriving DecidableEq

structure ReputationAuthority where
  publishers : AList (fun _ : String ↦ PublisherReputation)
  revokedPackages : List String
  revokedKeys : List String

namespace ReputationAuthority

def getPublisherReputation (a : ReputationAuthority) (publisherId : String) :
    PublisherReputation := (a.publishers.lookup publisherId).getD .standard

def isPackageRevoked (a : ReputationAuthority) (packageId : String) : Bool :=
  a.revokedPackages.contains packageId

def isKeyRevoked (a : ReputationAuthority) (keyHex : String) : Bool :=
  a.revokedKeys.contains keyHex

end ReputationAuthority

structure PackageFileEntry where
  path : List Char
  content : List UInt8
deriving DecidableEq

structure ScannerConfig where
  maxRiskScoreForApproval : ℕ
  flagThreshold : ℕ
  quarantineThreshold : ℕ
  allowNativeExtensions : Bool

structure PackageScanner where
  config : ScannerConfig
  authority : ReputationAuthority

def nativeExtensions : List (List Char) :=
  [['.', 'd', 'l', 'l'], ['.', 's', 'o'], ['.', 'd', 'y', 'l', 'i', 'b'], ['.', 'e', 'x', 'e'],
    ['.', 'b', 'i', 'n'], ['.', 'e', 'l', 'f']]

def scriptExtensions : List (List Char) :=
  [['.', 'l', 'u', 'a'], ['.', 'j', 's'], ['.', 't', 's'], ['.', 't', 'o', 'm', 'l'],
    ['.', 'j', 's', 'o', 'n']]

def dangerousTokens : List (String × String × Severity) :=
  [("os.execute", "Direct OS shell execution call", .high),
    ("io.popen", "Process spawn via popen", .high),
    ("package.loadlib", "Dynamic C library loader", .high),
    ("child_process", "Node child_process execution", .high),
    ("setfenv", "Lua environment tampering attempt", .medium),
    ("loadstring(", "Dynamic arbitrary string evaluation", .medium)]

def Severity.points : Severity → ℕ
  | .info => 0
  | .low => 5
  | .medium => 15
  | .high => 35
  | .critical => 80

section Files

/-- `text.matches(token).count()`: matches that do not overlap, from the left; `skip` characters of
the last one are still to be passed. -/
def matchCount (token : List Char) : ℕ → List Char → ℕ
  | _, [] => 0
  | skip + 1, _ :: rest => matchCount token skip rest
  | 0, c :: rest =>
    if token <+: c :: rest then matchCount token (token.length - 1) rest + 1
    else matchCount token 0 rest

def splitWhitespace (text : List Char) : List (List Char) :=
  (text.splitOnP isWhitespace).filter (fun word ↦ !word.isEmpty)

def isDelimiter (c : Char) : Bool :=
  ['\x27', '"', '\x60', '(', ')', ';', ',', '[', ']'].contains c

def trimMatches (word : List Char) : List Char :=
  ((word.dropWhile isDelimiter).reverse.dropWhile isDelimiter).reverse

def isB64 (word : List Char) : Bool :=
  word.all (fun c ↦ c.isAlphanum || c == '+' || c == '/' || c == '=')

def encodedWord (text : List Char) : Option (List Char) :=
  ((splitWhitespace text).map trimMatches).find?
    (fun word ↦ decide (300 < (String.ofList word).utf8ByteSize) && isB64 word)

def scanText (path text : List Char) : List Finding :=
  dangerousTokens.flatMap (fun t ↦ List.replicate (min (matchCount t.1.toList 0 text) 5)
      ⟨.sandboxViolation, t.2.2, t.2.1, some (String.ofList path)⟩) ++
    ((encodedWord text).elim [] fun word ↦
      [⟨.obfuscation, .medium, "Suspicious high-length encoded string literal (len: " ++
        toString (String.ofList word).utf8ByteSize ++ ")", some (String.ofList path)⟩])

def isScript (path : List Char) : Bool := scriptExtensions.any (fun ext ↦ ext.isSuffixOf path)

def scanScript (path : List Char) (content : List UInt8) : List Finding :=
  match ofUtf8 content with
  | some text => scanText path text.toList
  | none =>
    [⟨.obfuscation, .medium, "Non-UTF-8 bytes inside script source file",
      some (String.ofList path)⟩]

/-- The extension is compared in its case. -/
def scanFileContent (path : List Char) (content : List UInt8) : List Finding :=
  if isScript path then scanScript path content else []

end Files

namespace PackageScanner

def scanFilePath (s : PackageScanner) (path : List Char) : List Finding :=
  if nativeExtensions.any (fun ext ↦ ext.isSuffixOf (lower path)) then
    [⟨.nativeExtension, if s.config.allowNativeExtensions then .low else .critical,
      "Found native binary file '" ++ String.ofList path ++ "'", some (String.ofList path)⟩]
  else []

def scanManifest (s : PackageScanner) (manifest : PackageManifest) : List Finding :=
  (if s.authority.isPackageRevoked manifest.packageId then
    [⟨.revokedEntity, .critical,
      "Package ID '" ++ manifest.packageId ++ "' is on the revocation list", none⟩]
  else []) ++
  (match s.authority.getPublisherReputation manifest.publisherId with
  | .blacklisted => [⟨.revokedEntity, .critical,
      "Publisher '" ++ manifest.publisherId ++ "' is blacklisted", none⟩]
  | .suspicious => [⟨.revokedEntity, .high,
      "Publisher '" ++ manifest.publisherId ++ "' has suspicious reputation", none⟩]
  | _ => []) ++
  (if s.authority.isKeyRevoked manifest.signature.publicKeyHex then
    [⟨.revokedEntity, .critical,
      "Signature key '" ++ manifest.signature.publicKeyHex ++ "' is revoked", none⟩]
  else []) ++
  if isBlank manifest.packageId then
    [⟨.metadataAnomaly, .high, "Empty package ID", none⟩]
  else []

def scanFile (s : PackageScanner) (file : PackageFileEntry) : List Finding :=
  s.scanFilePath file.path ++ scanFileContent file.path file.content

def findings (s : PackageScanner) (manifest : PackageManifest) (files : List PackageFileEntry) :
    List Finding :=
  s.scanManifest manifest ++ files.flatMap s.scanFile

/-- `saturating_add` over the points, then the cap. -/
def riskOf (findings : List Finding) : ℕ :=
  min (findings.foldl (fun risk f ↦ min (risk + f.severity.points) (2 ^ 32 - 1)) 0) 100

def hasCritical (findings : List Finding) : Bool :=
  findings.any (fun f ↦ f.severity == .critical)

end PackageScanner

def PublisherReputation.discount : PublisherReputation → ℕ
  | .trusted => 15
  | .verified => 5
  | _ => 0

namespace PackageScanner

def verdictOf (s : PackageScanner) (manifest : PackageManifest) (critical : Bool)
    (riskScore : ℕ) : ScanVerdict :=
  if critical = true ∨ s.config.quarantineThreshold ≤ riskScore then
    if s.authority.getPublisherReputation manifest.publisherId = .blacklisted ∨
        s.authority.isPackageRevoked manifest.packageId = true then .rejected
    else .quarantined
  else if s.config.flagThreshold ≤ riskScore then .flaggedForReview
  else if riskScore ≤ s.config.maxRiskScoreForApproval then .approved
  else .flaggedForReview

def scan (s : PackageScanner) (manifest : PackageManifest) (files : List PackageFileEntry) :
    ScanReport :=
  let findings := s.findings manifest files
  let critical := hasCritical findings
  let pubRep := s.authority.getPublisherReputation manifest.publisherId
  let riskScore := riskOf findings - if critical then 0 else pubRep.discount
  { packageId := manifest.packageId
    publisherId := manifest.publisherId
    riskScore, findings
    verdict := s.verdictOf manifest critical riskScore }

end PackageScanner

def ScanVerdict.rank : ScanVerdict → ℕ
  | .approved => 0
  | .flaggedForReview => 1
  | .quarantined => 2
  | .rejected => 3

def Recases (f f' : PackageFileEntry) : Prop :=
  lower f.path = lower f'.path ∧ f.content = f'.content

/-- How the files are packaged buys no lower score and no better verdict. -/
structure Ungameable (s : PackageScanner) (manifest : PackageManifest)
    (files : List PackageFileEntry) : Prop where
  added : ∀ files', files.Subperm files' →
    (s.scan manifest files).riskScore ≤ (s.scan manifest files').riskScore ∧
    (s.scan manifest files).verdict.rank ≤ (s.scan manifest files').verdict.rank
  permuted : ∀ files', files.Perm files' →
    (s.scan manifest files').riskScore = (s.scan manifest files).riskScore ∧
    (s.scan manifest files').verdict = (s.scan manifest files).verdict
  recased : ∀ files', List.Forall₂ Recases files files' →
    (s.scan manifest files').riskScore = (s.scan manifest files).riskScore ∧
    (s.scan manifest files').verdict = (s.scan manifest files).verdict

section Weights

def marks (findings : List Finding) : List Severity := findings.map Finding.severity

def weigh (findings : List Finding) : ℕ := ((marks findings).map Severity.points).sum

theorem weigh_append (first last : List Finding) :
    weigh (first ++ last) = weigh first + weigh last := by
  simp [weigh, marks]

theorem weigh_perm {first last : List Finding} (h : first.Perm last) : weigh first = weigh last :=
  ((h.map Finding.severity).map Severity.points).sum_eq

theorem hasCritical_append (first last : List Finding) :
    PackageScanner.hasCritical (first ++ last) =
      (PackageScanner.hasCritical first || PackageScanner.hasCritical last) := List.any_append

theorem hasCritical_marks (findings : List Finding) :
    PackageScanner.hasCritical findings = (marks findings).any (· == .critical) := by
  rw [PackageScanner.hasCritical, marks, List.any_map]
  rfl

theorem points_le_weigh {findings : List Finding} {f : Finding} (h : f ∈ findings) :
    f.severity.points ≤ weigh findings :=
  List.single_le_sum (fun _ _ ↦ Nat.zero_le _) _
    (List.mem_map_of_mem (List.mem_map_of_mem h))

theorem weigh_critical {findings : List Finding} (h : PackageScanner.hasCritical findings = true) :
    80 ≤ weigh findings := by
  obtain ⟨f, hf, hcritical⟩ := List.any_eq_true.mp h
  have hpoints := points_le_weigh hf
  rwa [eq_of_beq hcritical] at hpoints

theorem foldl_saturating (cap : ℕ) (findings : List Finding) {risk : ℕ} (hrisk : risk ≤ cap) :
    findings.foldl (fun risk f ↦ min (risk + f.severity.points) cap) risk =
      min (risk + weigh findings) cap := by
  induction findings generalizing risk with
  | nil => exact (min_eq_left hrisk).symm
  | cons f findings ih =>
    rw [List.foldl_cons, ih (min_le_right _ _)]
    have hweigh : weigh (f :: findings) = f.severity.points + weigh findings := rfl
    rw [hweigh]
    omega

theorem riskOf_eq (findings : List Finding) :
    PackageScanner.riskOf findings = min (weigh findings) 100 := by
  rw [PackageScanner.riskOf, foldl_saturating _ findings (Nat.zero_le _)]
  omega

end Weights

section Contents

variable {path : List Char} {content : List UInt8}

theorem marks_scanScript (path path' : List Char) (content : List UInt8) :
    marks (scanScript path content) = marks (scanScript path' content) := by
  rw [scanScript, scanScript]
  cases ofUtf8 content with
  | none => rfl
  | some text =>
    change marks (scanText path text.toList) = marks (scanText path' text.toList)
    rw [scanText, scanText]
    cases encodedWord text.toList with
    | none => simp [marks, List.map_flatMap]
    | some word => simp [marks, List.map_flatMap]

theorem severity_scanScript {f : Finding} (h : f ∈ scanScript path content) :
    f.severity = .high ∨ f.severity = .medium := by
  have htokens : ∀ t ∈ dangerousTokens, t.2.2 = .high ∨ t.2.2 = .medium := by decide
  rw [scanScript] at h
  split at h
  · rename_i text _
    rcases List.mem_append.mp h with htoken | hword
    · obtain ⟨t, ht, hf⟩ := List.mem_flatMap.mp htoken
      rw [List.eq_of_mem_replicate hf]
      exact htokens t ht
    · cases hencoded : encodedWord text.toList with
      | none => simp [hencoded] at hword
      | some word =>
        rw [hencoded] at hword
        rw [List.mem_singleton.mp hword]
        exact .inr rfl
  · rw [List.mem_singleton.mp h]
    exact .inr rfl

theorem hasCritical_content (path : List Char) (content : List UInt8) :
    PackageScanner.hasCritical (scanFileContent path content) = false := by
  refine List.any_eq_false.mpr (fun f hf hcritical ↦ ?_)
  rw [scanFileContent] at hf
  split_ifs at hf
  · rcases severity_scanScript hf with hsev | hsev
    · rw [hsev] at hcritical
      exact absurd hcritical (by decide)
    · rw [hsev] at hcritical
      exact absurd hcritical (by decide)
  · exact absurd hf List.not_mem_nil

theorem lower_lower (text : List Char) : lower (lower text) = lower text := by
  rw [lower, lower, List.map_map]
  exact List.map_congr_left (fun c _ ↦
    of_toLower (P := fun c x ↦ x.toLower = c.toLower) (fun _ ↦ rfl) (by decide) c)

theorem isScript_lower (h : isScript path = true) : isScript (lower path) = true := by
  have hlower : ∀ ext ∈ scriptExtensions, lower ext = ext := by decide
  obtain ⟨ext, hext, hsuffix⟩ := List.any_eq_true.mp h
  refine List.any_eq_true.mpr ⟨ext, hext, List.isSuffixOf_iff_suffix.mpr ?_⟩
  rw [← hlower ext hext]
  exact (List.isSuffixOf_iff_suffix.mp hsuffix).map _

theorem weigh_content_le (path : List Char) (content : List UInt8) :
    weigh (scanFileContent path content) ≤ weigh (scanFileContent (lower path) content) := by
  by_cases hscript : isScript path = true
  · rw [scanFileContent, if_pos hscript, scanFileContent, if_pos (isScript_lower hscript), weigh,
      marks_scanScript path (lower path), weigh]
  · rw [scanFileContent, if_neg hscript]
    exact Nat.zero_le _

def lasts : List Char := ['a', 's', 'l', 'n']

def raise (c : Char) : Char := if c ∈ lasts then c.toUpper else c

theorem toLower_raise (c : Char) : (raise c).toLower = c.toLower := by
  rw [raise]
  split_ifs with hlast
  · have hall : lasts.all (fun c ↦ c.toUpper.toLower == c.toLower) = true := by decide
    exact eq_of_beq (List.all_eq_true.mp hall c hlast)
  · rfl

theorem raise_not_mem (c : Char) : raise c ∉ lasts := by
  rw [raise]
  split_ifs with hlast
  · have hall : lasts.all (fun c ↦ c.toUpper ∉ lasts) = true := by decide
    exact of_decide_eq_true (List.all_eq_true.mp hall c hlast)
  · exact hlast

theorem lower_raise (path : List Char) : lower (path.map raise) = lower path := by
  rw [lower, lower, List.map_map]
  exact List.map_congr_left (fun c _ ↦ toLower_raise c)

theorem isScript_raise (path : List Char) : isScript (path.map raise) = false := by
  have hlasts : scriptExtensions.all (fun ext ↦ ext.any (· ∈ lasts)) = true := by decide
  refine List.any_eq_false.mpr (fun ext hext hsuffix ↦ ?_)
  obtain ⟨c, hc, hlast⟩ := List.any_eq_true.mp (List.all_eq_true.mp hlasts ext hext)
  obtain ⟨c', -, hraise⟩ :=
    List.mem_map.mp ((List.isSuffixOf_iff_suffix.mp hsuffix).subset hc)
  exact raise_not_mem c' (hraise ▸ of_decide_eq_true hlast)

end Contents

section Packaging

variable {s : PackageScanner} {manifest : PackageManifest} {files files' : List PackageFileEntry}

def outer (s : PackageScanner) (manifest : PackageManifest) (files : List PackageFileEntry) :
    List Finding := s.scanManifest manifest ++ files.flatMap (fun f ↦ s.scanFilePath f.path)

def shown (files : List PackageFileEntry) : List Finding :=
  files.flatMap (fun f ↦ scanFileContent f.path f.content)

/-- The findings in the contents of all scripts, in whatever case their extension is written. -/
def inner (files : List PackageFileEntry) : List Finding :=
  files.flatMap (fun f ↦ scanFileContent (lower f.path) f.content)

theorem findings_perm (s : PackageScanner) (manifest : PackageManifest)
    (files : List PackageFileEntry) :
    (s.findings manifest files).Perm (outer s manifest files ++ shown files) := by
  rw [outer, List.append_assoc]
  exact (List.flatMap_append_perm files _ _).symm.append_left _

theorem hasCritical_shown (files : List PackageFileEntry) :
    PackageScanner.hasCritical (shown files) = false := by
  induction files with
  | nil => rfl
  | cons f files ih =>
    have hcons : shown (f :: files) = scanFileContent f.path f.content ++ shown files := rfl
    rw [hcons, hasCritical_append, hasCritical_content, ih, Bool.or_false]

theorem weigh_shown_le (files : List PackageFileEntry) :
    weigh (shown files) ≤ weigh (inner files) := by
  induction files with
  | nil => exact Nat.le_refl _
  | cons f files ih =>
    have hshown : shown (f :: files) = scanFileContent f.path f.content ++ shown files := rfl
    have hinner : inner (f :: files) =
        scanFileContent (lower f.path) f.content ++ inner files := rfl
    rw [hshown, hinner, weigh_append, weigh_append]
    exact Nat.add_le_add (weigh_content_le f.path f.content) ih

def score (s : PackageScanner) (manifest : PackageManifest) (critical : Bool) (weight : ℕ) : ℕ :=
  min weight 100 -
    if critical then 0 else (s.authority.getPublisherReputation manifest.publisherId).discount

def grade (s : PackageScanner) (manifest : PackageManifest) (files : List PackageFileEntry) : ℕ :=
  score s manifest (PackageScanner.hasCritical (outer s manifest files))
    (weigh (outer s manifest files) + weigh (shown files))

theorem scan_hasCritical (s : PackageScanner) (manifest : PackageManifest)
    (files : List PackageFileEntry) :
    PackageScanner.hasCritical (s.findings manifest files) =
      PackageScanner.hasCritical (outer s manifest files) := by
  have hperm : PackageScanner.hasCritical (s.findings manifest files) =
      PackageScanner.hasCritical (outer s manifest files ++ shown files) :=
    (findings_perm s manifest files).any_eq
  rw [hperm, hasCritical_append, hasCritical_shown, Bool.or_false]

theorem scan_riskScore (s : PackageScanner) (manifest : PackageManifest)
    (files : List PackageFileEntry) :
    (s.scan manifest files).riskScore = grade s manifest files := by
  have hscore : (s.scan manifest files).riskScore =
      PackageScanner.riskOf (s.findings manifest files) -
        if PackageScanner.hasCritical (s.findings manifest files) then 0
        else (s.authority.getPublisherReputation manifest.publisherId).discount := rfl
  rw [hscore, riskOf_eq, scan_hasCritical, weigh_perm (findings_perm s manifest files),
    weigh_append, grade, score]

theorem scan_verdict (s : PackageScanner) (manifest : PackageManifest)
    (files : List PackageFileEntry) :
    (s.scan manifest files).verdict =
      s.verdictOf manifest (PackageScanner.hasCritical (outer s manifest files))
        (grade s manifest files) := by
  rw [← scan_hasCritical, ← scan_riskScore]
  rfl

theorem discount_le (r : PublisherReputation) : r.discount ≤ 15 := by
  cases r <;> decide

theorem score_mono {critical critical' : Bool} {weight weight' : ℕ}
    (hcritical : critical = true → critical' = true) (hweight : weight ≤ weight') :
    score s manifest critical weight ≤ score s manifest critical' weight' := by
  rw [score, score]
  refine tsub_le_tsub (min_le_min_right 100 hweight) ?_
  cases critical with
  | true => rw [hcritical rfl]
  | false =>
    rw [if_neg Bool.false_ne_true]
    split_ifs
    · exact Nat.zero_le _
    · exact Nat.le_refl _

theorem rank_verdictOf_mono {critical critical' : Bool} {risk risk' : ℕ}
    (hcritical : critical = true → critical' = true) (hrisk : risk ≤ risk') :
    (s.verdictOf manifest critical risk).rank ≤ (s.verdictOf manifest critical' risk').rank := by
  rw [PackageScanner.verdictOf, PackageScanner.verdictOf]
  by_cases hquarantine : critical = true ∨ s.config.quarantineThreshold ≤ risk
  · have hquarantine' : critical' = true ∨ s.config.quarantineThreshold ≤ risk' :=
      hquarantine.imp hcritical (·.trans hrisk)
    rw [if_pos hquarantine, if_pos hquarantine']
  · rw [if_neg hquarantine]
    split_ifs <;> first | omega | decide

theorem perm_scan (s : PackageScanner) (manifest : PackageManifest) (h : files.Perm files') :
    (s.scan manifest files').riskScore = (s.scan manifest files).riskScore ∧
    (s.scan manifest files').verdict = (s.scan manifest files).verdict := by
  have houter : (outer s manifest files).Perm (outer s manifest files') :=
    (h.flatMap_right _).append_left _
  have hshown : (shown files).Perm (shown files') := h.flatMap_right _
  have hcritical : PackageScanner.hasCritical (outer s manifest files) =
      PackageScanner.hasCritical (outer s manifest files') := houter.any_eq
  have hgrade : grade s manifest files' = grade s manifest files := by
    rw [grade, grade, hcritical, weigh_perm houter, weigh_perm hshown]
  rw [scan_riskScore, scan_riskScore, scan_verdict, scan_verdict, hgrade, hcritical]
  exact ⟨rfl, rfl⟩

theorem append_scan (s : PackageScanner) (manifest : PackageManifest)
    (files extra : List PackageFileEntry) :
    (s.scan manifest files).riskScore ≤ (s.scan manifest (files ++ extra)).riskScore ∧
    (s.scan manifest files).verdict.rank ≤ (s.scan manifest (files ++ extra)).verdict.rank := by
  have houter : outer s manifest (files ++ extra) =
      outer s manifest files ++ extra.flatMap (fun f ↦ s.scanFilePath f.path) := by
    rw [outer, outer, List.flatMap_append, List.append_assoc]
  have hshown : shown (files ++ extra) = shown files ++ shown extra := List.flatMap_append
  have hcritical : PackageScanner.hasCritical (outer s manifest files) = true →
      PackageScanner.hasCritical (outer s manifest (files ++ extra)) = true := by
    intro h
    rw [houter, hasCritical_append, h, Bool.true_or]
  have hgrade : grade s manifest files ≤ grade s manifest (files ++ extra) := by
    refine score_mono hcritical ?_
    rw [houter, hshown, weigh_append, weigh_append]
    omega
  rw [scan_riskScore, scan_riskScore, scan_verdict, scan_verdict]
  exact ⟨hgrade, rank_verdictOf_mono hcritical hgrade⟩

theorem subperm_scan (h : files.Subperm files') :
    (s.scan manifest files).riskScore ≤ (s.scan manifest files').riskScore ∧
    (s.scan manifest files).verdict.rank ≤ (s.scan manifest files').verdict.rank := by
  obtain ⟨part, hpart, hsub⟩ := h
  obtain ⟨extra, hextra⟩ := hsub.exists_perm_append
  have hperm : (files ++ extra).Perm files' := (hpart.symm.append_right extra).trans hextra.symm
  obtain ⟨hscore, hverdict⟩ := perm_scan s manifest hperm
  rw [hscore, hverdict]
  exact append_scan s manifest files extra

theorem marks_scanFilePath {path path' : List Char} (h : lower path = lower path') :
    marks (s.scanFilePath path) = marks (s.scanFilePath path') := by
  rw [PackageScanner.scanFilePath, PackageScanner.scanFilePath, h]
  split_ifs <;> rfl

theorem marks_outer (h : List.Forall₂ Recases files files') :
    marks (outer s manifest files) = marks (outer s manifest files') := by
  have hpaths : marks (files.flatMap (fun f ↦ s.scanFilePath f.path)) =
      marks (files'.flatMap (fun f ↦ s.scanFilePath f.path)) := by
    induction h with
    | nil => rfl
    | cons hcase _ ih =>
      rw [List.flatMap_cons, List.flatMap_cons, marks, marks, List.map_append, List.map_append]
      exact congrArg₂ (· ++ ·) (marks_scanFilePath hcase.1) ih
  rw [outer, outer, marks, marks, List.map_append, List.map_append]
  exact congrArg _ hpaths

theorem inner_recased (h : List.Forall₂ Recases files files') : inner files = inner files' := by
  induction h with
  | nil => rfl
  | cons hcase _ ih =>
    rw [inner, inner, List.flatMap_cons, List.flatMap_cons, hcase.1, hcase.2]
    exact congrArg _ ih

theorem grade_recased (h : List.Forall₂ Recases files files') :
    grade s manifest files' = score s manifest (PackageScanner.hasCritical (outer s manifest files))
      (weigh (outer s manifest files) + weigh (shown files')) := by
  rw [grade, hasCritical_marks, weigh, ← marks_outer h, ← hasCritical_marks, ← weigh]

theorem verdict_recased (h : List.Forall₂ Recases files files')
    (hgrade : grade s manifest files' = grade s manifest files) :
    (s.scan manifest files').verdict = (s.scan manifest files).verdict := by
  rw [scan_verdict, scan_verdict, hgrade, hasCritical_marks, ← marks_outer h, ← hasCritical_marks]

def bare (f : PackageFileEntry) : PackageFileEntry := { f with path := lower f.path }

def hide (f : PackageFileEntry) : PackageFileEntry := { f with path := f.path.map raise }

theorem recases_bare (files : List PackageFileEntry) :
    List.Forall₂ Recases files (files.map bare) :=
  List.forall₂_map_right_iff.mpr
    (List.forall₂_same.mpr (fun f _ ↦ ⟨(lower_lower f.path).symm, rfl⟩))

theorem recases_hide (files : List PackageFileEntry) :
    List.Forall₂ Recases files (files.map hide) :=
  List.forall₂_map_right_iff.mpr
    (List.forall₂_same.mpr (fun f _ ↦ ⟨(lower_raise f.path).symm, rfl⟩))

theorem shown_bare (files : List PackageFileEntry) : shown (files.map bare) = inner files :=
  List.flatMap_map _ _ files

theorem shown_hide (files : List PackageFileEntry) : shown (files.map hide) = [] := by
  refine (List.flatMap_map _ _ files).trans (List.flatMap_eq_nil_iff.mpr (fun f _ ↦ ?_))
  have hscript : isScript (hide f).path = false := isScript_raise f.path
  rw [scanFileContent, hscript]
  rfl

/-- Packaging buys nothing exactly when what the contents of the scripts weigh, extensions read in
any case, is nothing, is past the cap without them, or is swallowed by the discount. -/
theorem ungameable_iff (s : PackageScanner) (manifest : PackageManifest)
    (files : List PackageFileEntry) :
    Ungameable s manifest files ↔
      weigh (inner files) = 0 ∨ 100 ≤ weigh (outer s manifest files) ∨
      weigh (outer s manifest files) + weigh (inner files) ≤
        (s.authority.getPublisherReputation manifest.publisherId).discount := by
  have hdiscount := discount_le (s.authority.getPublisherReputation manifest.publisherId)
  constructor
  · intro h
    have hbare := (h.recased _ (recases_bare files)).1
    have hhide := (h.recased _ (recases_hide files)).1
    rw [scan_riskScore, scan_riskScore, grade_recased (recases_bare files), shown_bare] at hbare
    rw [scan_riskScore, scan_riskScore, grade_recased (recases_hide files), shown_hide,
      ← hbare] at hhide
    have hnil : weigh [] = 0 := rfl
    rw [score, score, hnil] at hhide
    split_ifs at hhide with hcritical <;> omega
  · intro h
    have hcases : ∀ files', List.Forall₂ Recases files files' →
        grade s manifest files' = grade s manifest files := by
      intro files' hfiles'
      have hle := weigh_shown_le files
      have hle' := weigh_shown_le files'
      rw [← inner_recased hfiles'] at hle'
      rw [grade_recased hfiles', grade, score, score]
      by_cases hcritical : PackageScanner.hasCritical (outer s manifest files) = true
      · have hweigh := weigh_critical hcritical
        rw [if_pos hcritical]
        omega
      · rw [if_neg hcritical]
        omega
    refine ⟨fun _ ↦ subperm_scan, fun _ ↦ perm_scan s manifest, fun files' hfiles' ↦ ⟨?_, ?_⟩⟩
    · rw [scan_riskScore, scan_riskScore, hcases files' hfiles']
    · exact verdict_recased hfiles' (hcases files' hfiles')

def shouting : PackageManifest where
  packageId := "pack"
  publisherId := "dev"
  name := "pack"
  version := "1.0.0"
  minimumRuntime := "0.1.0"
  framework := none
  dependencies := []
  fileHashes := []
  totalSize := 10
  protection := .«open»
  entitlementModel := "open"
  signature := ⟨"ed25519", "00", "00"⟩

/-- A script that runs a command of the system is flagged under the default configuration, and
approved once its extension is in capitals. -/
theorem shouted_script :
    let s : PackageScanner := ⟨⟨20, 40, 75, false⟩, ⟨∅, [], []⟩⟩
    let quiet : PackageFileEntry := ⟨['m', '.', 'l', 'u', 'a'], utf8 "os.execute"⟩
    let loud : PackageFileEntry := ⟨['m', '.', 'L', 'U', 'A'], utf8 "os.execute"⟩
    Recases quiet loud ∧ (s.scan shouting [quiet]).riskScore = 35 ∧
      (s.scan shouting [quiet]).verdict = .flaggedForReview ∧
      (s.scan shouting [loud]).riskScore = 0 ∧ (s.scan shouting [loud]).verdict = .approved ∧
      ¬Ungameable s shouting [quiet] := by
  intro s quiet loud
  have hcase : Recases quiet loud := ⟨by decide, rfl⟩
  have hquiet : (s.scan shouting [quiet]).riskScore = 35 ∧
      (s.scan shouting [quiet]).verdict = .flaggedForReview := by decide +kernel
  have hloud : (s.scan shouting [loud]).riskScore = 0 ∧
      (s.scan shouting [loud]).verdict = .approved := by decide +kernel
  refine ⟨hcase, hquiet.1, hquiet.2, hloud.1, hloud.2, fun h ↦ ?_⟩
  have hsame := (h.recased [loud] (.cons hcase .nil)).1
  rw [hquiet.1, hloud.1] at hsame
  exact absurd hsame (by decide)

end Packaging

end Aldivine.Packages.Scanner
