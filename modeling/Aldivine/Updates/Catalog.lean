import Aldivine.Foundation.Execution
import Aldivine.Foundation.Fallible
import Aldivine.Foundation.SemVer
import Aldivine.Foundation.Table
import Aldivine.Foundation.Text

namespace Aldivine.Updates.Catalog

open Foundation.Execution Foundation.Fallible Foundation.SemVer Foundation.Table Foundation.Text

inductive ReleaseChannel
  | development
  | nightly
  | canary
  | beta
  | recommended
  | stable
deriving DecidableEq

inductive Platform
  | windowsX86_64
  | linuxX86_64
deriving DecidableEq

structure ArtifactRecord where
  artifactId : String
  version : String
  channel : ReleaseChannel
  platform : Platform
  sha256Hex : String
  sizeBytes : BitVec 64
  downloadUrl : String
  publicKeyHex : String
  signatureHex : String
  sbomSha256 : String
  rollbackTargetId : Option String
deriving DecidableEq

inductive UpdateError
  | artifactAlreadyExists (artifactId : String)
  | artifactNotFound (artifactId : String)
  | invalidHexKey (text : String)
  | invalidHexSignature (text : String)
  | signatureVerificationFailed
  | noRollbackAvailable (artifactId : String)
deriving DecidableEq

section Hex

def hexNibble (b : UInt8) : Option UInt8 :=
  if 0x30 ≤ b ∧ b ≤ 0x39 then some (b - 0x30)
  else if 0x61 ≤ b ∧ b ≤ 0x66 then some (b - 0x61 + 10)
  else if 0x41 ≤ b ∧ b ≤ 0x46 then some (b - 0x41 + 10)
  else none

/-- Two nibbles a byte; an odd length is refused. -/
def hexBytes : List UInt8 → Option (List UInt8)
  | [] => some []
  | [_] => none
  | hi :: lo :: rest => do
    let hi ← hexNibble hi
    let lo ← hexNibble lo
    let out ← hexBytes rest
    return (hi <<< 4 ||| lo) :: out

def hexDecode (s : String) : Option (List UInt8) := hexBytes (utf8 s)

end Hex

def Platform.code : Platform → ℕ
  | .windowsX86_64 => 0
  | .linuxX86_64 => 1

/-- The signature scheme: which byte strings are keys, and what a key verifies. -/
structure Scheme where
  validKey : List UInt8 → Bool
  verify : List UInt8 → List UInt8 → List UInt8 → Bool

def ArtifactRecord.canonicalSignedBytes (r : ArtifactRecord) : List UInt8 :=
  utf8 (r.artifactId ++ ":" ++ r.version ++ ":" ++ toString r.platform.code ++ ":" ++ r.sha256Hex)

def ArtifactRecord.verifySignature (scheme : Scheme) (r : ArtifactRecord) :
    Except UpdateError Unit := do
  let key ← ((hexDecode r.publicKeyHex).elim (.error (.invalidHexKey r.publicKeyHex)) .ok)
  let signature ←
    ((hexDecode r.signatureHex).elim (.error (.invalidHexSignature r.signatureHex)) .ok)
  if key.length ≠ 32 then throw (.invalidHexKey "expected 32-byte key")
  if signature.length ≠ 64 then throw (.invalidHexSignature "expected 64-byte signature")
  if !scheme.validKey key then throw (.invalidHexKey "invalid ed25519 key bytes")
  if !scheme.verify key r.canonicalSignedBytes signature then throw .signatureVerificationFailed

structure ReleaseCatalog where
  artifacts : AList (fun _ : String ↦ ArtifactRecord)
  byChannelPlatform : AList (fun _ : ReleaseChannel × Platform ↦ List String)

namespace ReleaseCatalog

def new : ReleaseCatalog := ⟨∅, ∅⟩

def register (scheme : Scheme) (c : ReleaseCatalog) (record : ArtifactRecord) :
    ReleaseCatalog × Except UpdateError Unit :=
  if (c.artifacts.lookup record.artifactId).isSome then
    (c, .error (.artifactAlreadyExists record.artifactId))
  else
    match record.verifySignature scheme with
    | .error e => (c, .error e)
    | .ok () =>
      let key := (record.channel, record.platform)
      let published := (c.byChannelPlatform.lookup key).getD []
      ({ byChannelPlatform := c.byChannelPlatform.insert key (published ++ [record.artifactId])
         artifacts := c.artifacts.insert record.artifactId record }, .ok ())

def get (c : ReleaseCatalog) (artifactId : String) : Option ArtifactRecord :=
  c.artifacts.lookup artifactId

def getLatest (c : ReleaseCatalog) (channel : ReleaseChannel) (platform : Platform) :
    Option ArtifactRecord := do
  let list ← c.byChannelPlatform.lookup (channel, platform)
  let latestId ← list.getLast?
  c.get latestId

end ReleaseCatalog

structure UpdatePlan where
  currentVersion : String
  targetVersion : String
  isUpdateAvailable : Bool
  artifact : Option ArtifactRecord
  rollbackAvailable : Bool
deriving DecidableEq

/-- `UpdateChecker::check`: an update is whatever does not have the same version string. -/
def check (currentVersion : String) (channel : ReleaseChannel) (platform : Platform)
    (catalog : ReleaseCatalog) : UpdatePlan :=
  match catalog.getLatest channel platform with
  | some latest =>
    { currentVersion
      targetVersion := latest.version
      isUpdateAvailable := decide (latest.version ≠ currentVersion)
      artifact := some latest
      rollbackAvailable := latest.rollbackTargetId.isSome }
  | none => ⟨currentVersion, currentVersion, false, none, false⟩

def OffersUpgrade (plan : UpdatePlan) : Prop :=
  plan.isUpdateAvailable = true → Higher plan.targetVersion plan.currentVersion

section History

def publishedIn (channel : ReleaseChannel) (platform : Platform)
    (x : ArtifactRecord × Except UpdateError Unit) : Option ArtifactRecord :=
  if x.2 = .ok () ∧ x.1.channel = channel ∧ x.1.platform = platform then some x.1 else none

def lastPublished (channel : ReleaseChannel) (platform : Platform)
    (history : List (ArtifactRecord × Except UpdateError Unit)) : Option ArtifactRecord :=
  latest (publishedIn channel platform) history

end History

variable {scheme : Scheme} {c : ReleaseCatalog} {channel : ReleaseChannel} {platform : Platform}
  {history : List (ArtifactRecord × Except UpdateError Unit)}

/-- The lists of the catalog end in what was last published, which is still there. -/
def Recorded (c : ReleaseCatalog)
    (history : List (ArtifactRecord × Except UpdateError Unit)) : Prop :=
  ∀ channel platform,
    (c.byChannelPlatform.lookup (channel, platform)).bind List.getLast? =
        (lastPublished channel platform history).map (·.artifactId) ∧
      ∀ r, lastPublished channel platform history = some r → c.get r.artifactId = some r

theorem register_cases (scheme : Scheme) (c : ReleaseCatalog) (record : ArtifactRecord) :
    (∃ e, c.register scheme record = (c, .error e)) ∨
      (c.get record.artifactId = none ∧ c.register scheme record =
        (⟨c.artifacts.insert record.artifactId record, c.byChannelPlatform.insert
            (record.channel, record.platform)
            ((c.byChannelPlatform.lookup (record.channel, record.platform)).getD [] ++
              [record.artifactId])⟩, .ok ())) := by
  unfold ReleaseCatalog.register
  split
  · exact .inl ⟨_, rfl⟩
  · rename_i hnew
    split
    · exact .inl ⟨_, rfl⟩
    · exact .inr ⟨Option.not_isSome_iff_eq_none.mp hnew, rfl⟩

theorem register_recorded (record : ArtifactRecord) (h : Recorded c history) :
    Recorded (c.register scheme record).1
      (history ++ [(record, (c.register scheme record).2)]) := by
  rcases register_cases scheme c record with ⟨e, hfail⟩ | ⟨hnew, hok⟩
  · rw [hfail]
    intro channel platform
    have hmiss : publishedIn channel platform (record, .error e) = none := by
      refine if_neg ?_
      rintro ⟨hok, -⟩
      cases hok
    rw [lastPublished, latest_concat, hmiss, Option.none_or]
    exact h channel platform
  · rw [hok]
    intro channel platform
    rw [lastPublished, latest_concat, ← lastPublished]
    by_cases hkey : record.channel = channel ∧ record.platform = platform
    · obtain ⟨rfl, rfl⟩ := hkey
      have hhit : publishedIn record.channel record.platform (record, .ok ()) = some record :=
        if_pos ⟨rfl, rfl, rfl⟩
      rw [hhit, Option.some_or]
      constructor
      · rw [AList.lookup_insert, Option.bind_some, List.getLast?_concat, Option.map_some]
      · intro r hr
        obtain rfl := Option.some.inj hr
        exact AList.lookup_insert _
    · have hmiss : publishedIn channel platform (record, .ok ()) = none :=
        if_neg (fun hboth ↦ hkey hboth.2)
      have hother : (channel, platform) ≠ (record.channel, record.platform) := by
        intro heq
        obtain ⟨hchannel, hplatform⟩ := Prod.mk.inj heq
        exact hkey ⟨hchannel.symm, hplatform.symm⟩
      obtain ⟨hlast, hstored⟩ := h channel platform
      rw [hmiss, Option.none_or, AList.lookup_insert_ne hother]
      refine ⟨hlast, fun r hr ↦ ?_⟩
      -- nothing is ever registered over an artifact that is there
      have hne : r.artifactId ≠ record.artifactId := by
        intro heq
        have hthere := hstored r hr
        rw [heq] at hthere
        cases hnew.symm.trans hthere
      exact (AList.lookup_insert_ne hne).trans (hstored r hr)

theorem getLatest_eq (h : Recorded c history) :
    c.getLatest channel platform = lastPublished channel platform history := by
  obtain ⟨hlast, hstored⟩ := h channel platform
  have hbind : c.getLatest channel platform =
      ((c.byChannelPlatform.lookup (channel, platform)).bind List.getLast?).bind c.get := by
    rw [Option.bind_assoc]
    rfl
  rw [hbind, hlast]
  cases hpub : lastPublished channel platform history with
  | none => rfl
  | some r => exact hstored r hpub

theorem run_recorded (scheme : Scheme) (records : List ArtifactRecord) :
    Recorded (run (ReleaseCatalog.register scheme) .new records)
      (answers (ReleaseCatalog.register scheme) .new records) := by
  refine invariant_throughout (P := fun _ _ _ ↦ True) (fun c h record hc _ ↦ ?_) ?_ records
    (fun _ _ _ ↦ trivial)
  · exact register_recorded record hc
  · intro channel platform
    refine ⟨rfl, fun r hr ↦ ?_⟩
    cases hr

/-- An update is offered only upwards exactly when what was last published for the channel and the
platform is nothing, has the very version string of the client, or is strictly higher. -/
theorem offersUpgrade_iff (scheme : Scheme) (records : List ArtifactRecord)
    (currentVersion : String) (channel : ReleaseChannel) (platform : Platform) :
    OffersUpgrade (check currentVersion channel platform
        (run (ReleaseCatalog.register scheme) .new records)) ↔
      ∀ r, lastPublished channel platform
          (answers (ReleaseCatalog.register scheme) .new records) = some r →
        r.version = currentVersion ∨ Higher r.version currentVersion := by
  rw [check, getLatest_eq (run_recorded scheme records)]
  cases lastPublished channel platform (answers (ReleaseCatalog.register scheme) .new records) with
  | none =>
    refine iff_of_true ?_ ?_
    · intro hoffered
      cases hoffered
    · intro r hr
      cases hr
  | some latest =>
    constructor
    · intro hoffers r hr
      obtain rfl := Option.some.inj hr
      by_cases hsame : latest.version = currentVersion
      · exact .inl hsame
      · exact .inr (hoffers (decide_eq_true hsame))
    · intro h hoffered
      exact (h latest rfl).resolve_left (of_decide_eq_true hoffered)

/-- A stable release for Linux; the key and the signature have the right lengths. -/
def release (artifactId version : String) : ArtifactRecord :=
  { artifactId, version
    channel := .stable
    platform := .linuxX86_64
    sha256Hex := "00"
    sizeBytes := 4096
    downloadUrl := "https://releases.aldivine.com/" ++ artifactId ++ "/bin"
    publicKeyHex := String.ofList (List.replicate 64 '0')
    signatureHex := String.ofList (List.replicate 128 '0')
    sbomSha256 := "11"
    rollbackTargetId := none }

def anyKey : Scheme := ⟨fun _ ↦ true, fun _ _ _ ↦ true⟩

/-- A hotfix of an older line, published last, is offered to the clients of the newer line. -/
theorem hotfix_offers_downgrade :
    ¬OffersUpgrade (check "1.1.0" .stable .linuxX86_64
      (run (ReleaseCatalog.register anyKey) .new [release "a" "1.1.0", release "b" "1.0.1"])) := by
  have hplan : check "1.1.0" .stable .linuxX86_64
      (run (ReleaseCatalog.register anyKey) .new [release "a" "1.1.0", release "b" "1.0.1"]) =
        ⟨"1.1.0", "1.0.1", true, some (release "b" "1.0.1"), false⟩ := by
    decide +kernel
  rw [hplan]
  intro hoffers
  obtain ⟨v, w, hv, hw, hgt⟩ := hoffers rfl
  have hfix : parse "1.0.1" = some ⟨1, 0, 1, [], []⟩ := by decide +kernel
  have hcurrent : parse "1.1.0" = some ⟨1, 1, 0, [], []⟩ := by decide +kernel
  obtain rfl := Option.some.inj (hv.symm.trans hfix)
  obtain rfl := Option.some.inj (hw.symm.trans hcurrent)
  exact absurd hgt (by decide)

section Signing

def ArtifactRecord.identity (r : ArtifactRecord) : String × String × Platform × String :=
  (r.artifactId, r.version, r.platform, r.sha256Hex)

def Scheme.Binding (scheme : Scheme) : Prop :=
  ∀ key message message' signature, scheme.verify key message signature = true →
    scheme.verify key message' signature = true → message' = message

/-- Neither the signed bytes nor a signature of the record fit one of another identity. -/
structure Bound (r : ArtifactRecord) : Prop where
  bytes : ∀ r' : ArtifactRecord,
    r'.canonicalSignedBytes = r.canonicalSignedBytes → r'.identity = r.identity
  signature : ∀ (scheme : Scheme) (r' : ArtifactRecord), scheme.Binding →
    r'.publicKeyHex = r.publicKeyHex → r'.signatureHex = r.signatureHex →
    r.verifySignature scheme = .ok () → r'.verifySignature scheme = .ok () →
    r'.identity = r.identity

def Platform.digit : Platform → Char
  | .windowsX86_64 => '0'
  | .linuxX86_64 => '1'

def tagged (p : Platform) (after : List Char) : List Char := ':' :: p.digit :: ':' :: after

variable {r r' : ArtifactRecord} {p p' : Platform} {a b rest rest' mid after after' : List Char}

theorem toList_code (p : Platform) : (toString p.code).toList = [p.digit] := by
  cases p <;> decide

theorem digit_ne_colon (p : Platform) : p.digit ≠ ':' := by
  cases p <;> decide

theorem digit_injective : Function.Injective Platform.digit := by
  intro p p' h
  cases p <;> cases p' <;> first | rfl | exact absurd h (by decide)

def canonicalChars (r : ArtifactRecord) : List Char :=
  r.artifactId.toList ++ ':' :: (r.version.toList ++ tagged r.platform r.sha256Hex.toList)

theorem canonicalSignedBytes_eq_iff :
    r'.canonicalSignedBytes = r.canonicalSignedBytes ↔ canonicalChars r' = canonicalChars r := by
  have hchars (r : ArtifactRecord) : (r.artifactId ++ ":" ++ r.version ++ ":" ++
      toString r.platform.code ++ ":" ++ r.sha256Hex).toList = canonicalChars r := by
    simp only [String.toList_append, toList_code, canonicalChars, tagged, List.append_assoc]
    rfl
  rw [ArtifactRecord.canonicalSignedBytes, ArtifactRecord.canonicalSignedBytes,
    utf8_injective.eq_iff, ← String.toList_inj, hchars, hchars]

theorem cut_cases (ha : ':' ∉ a) (heq : b ++ ':' :: rest' = a ++ ':' :: rest) :
    (b = a ∧ rest' = rest) ∨ ∃ mid, rest = mid ++ ':' :: rest' := by
  obtain ⟨mid, hmid, hrest⟩ | ⟨mid, hmid, hrest⟩ := List.append_eq_append_iff.mp heq
  · cases mid with
    | nil => exact .inl ⟨by simpa using hmid.symm, (List.cons.inj hrest).2⟩
    | cons c mid =>
      obtain ⟨rfl, -⟩ := List.cons.inj hrest
      exact absurd (by simp [hmid]) ha
  · cases mid with
    | nil => exact .inl ⟨by simpa using hmid, (List.cons.inj hrest).2.symm⟩
    | cons c mid => exact .inr ⟨mid, (List.cons.inj hrest).2⟩

theorem tagged_behind (heq : p.digit :: ':' :: after = mid ++ tagged p' after') :
    [':', p'.digit, ':'] <:+: ':' :: after := by
  cases mid with
  | nil => exact absurd (List.cons.inj heq).1 (digit_ne_colon p)
  | cons c mid => exact ⟨mid, after', by rw [(List.cons.inj heq).2, tagged]; simp⟩

/-- No field but the checksum holds a separator, and no platform can be read in the checksum. -/
structure Unambiguous (r : ArtifactRecord) : Prop where
  artifactId : ':' ∉ r.artifactId.toList
  version : ':' ∉ r.version.toList
  sha256Hex : ∀ p : Platform, ¬[':', p.digit, ':'] <:+: ':' :: r.sha256Hex.toList

theorem Unambiguous.identity_eq (h : Unambiguous r) (heq : canonicalChars r' = canonicalChars r) :
    r'.identity = r.identity := by
  obtain ⟨hid, hafter⟩ | ⟨mid, hmid⟩ := cut_cases h.artifactId heq
  · obtain ⟨hversion, htag⟩ | ⟨mid, hmid⟩ := cut_cases h.version hafter
    · obtain ⟨hplatform, hsha⟩ := List.cons.inj htag
      rw [ArtifactRecord.identity, ArtifactRecord.identity, String.toList_inj.mp hid,
        String.toList_inj.mp hversion, digit_injective hplatform,
        String.toList_inj.mp (List.cons.inj hsha).2]
    · exact absurd (tagged_behind hmid) (h.sha256Hex r'.platform)
  · obtain ⟨-, htag⟩ | ⟨mid', hmid'⟩ := cut_cases h.version hmid.symm
    · exact absurd (tagged_behind htag.symm) (h.sha256Hex r'.platform)
    · rw [← List.cons_append, ← List.append_assoc] at hmid'
      exact absurd (tagged_behind hmid') (h.sha256Hex r'.platform)

theorem decoded_eq_ok {decoded : Option (List UInt8)} {e : UpdateError} {bytes : List UInt8} :
    decoded.elim (.error e) .ok = Except.ok bytes ↔ decoded = some bytes := by
  cases decoded with
  | none => exact iff_of_false nofun nofun
  | some out => exact Except.ok.injEq out bytes ▸ (Option.some.injEq out bytes ▸ Iff.rfl)

theorem verify_of_ok {scheme : Scheme} (h : r.verifySignature scheme = .ok ()) :
    ∃ key signature, hexDecode r.publicKeyHex = some key ∧
      hexDecode r.signatureHex = some signature ∧
      scheme.verify key r.canonicalSignedBytes signature = true := by
  obtain ⟨key, hkey, h⟩ := bind_eq_ok.mp h
  obtain ⟨signature, hsignature, h⟩ := bind_eq_ok.mp h
  refine ⟨key, signature, decoded_eq_ok.mp hkey, decoded_eq_ok.mp hsignature, ?_⟩
  by_cases hkeyLength : key.length ≠ 32
  · rw [if_pos hkeyLength] at h
    cases h
  by_cases hsignatureLength : signature.length ≠ 64
  · rw [if_neg hkeyLength, if_pos hsignatureLength] at h
    cases h
  rw [if_neg hkeyLength, if_neg hsignatureLength] at h
  cases hvalid : scheme.validKey key with
  | false =>
    rw [hvalid] at h
    cases h
  | true =>
    cases hverify : scheme.verify key r.canonicalSignedBytes signature with
    | false =>
      rw [hvalid, hverify] at h
      cases h
    | true => rfl

theorem Bound.of_bytes
    (h : ∀ r' : ArtifactRecord,
      r'.canonicalSignedBytes = r.canonicalSignedBytes → r'.identity = r.identity) : Bound r := by
  refine ⟨h, fun scheme r' hbinding hkey hsignature hok hok' ↦ ?_⟩
  obtain ⟨key, signature, hkey₁, hsignature₁, hverify⟩ := verify_of_ok hok
  obtain ⟨key', signature', hkey₂, hsignature₂, hverify'⟩ := verify_of_ok hok'
  rw [hkey, hkey₁] at hkey₂
  rw [hsignature, hsignature₁] at hsignature₂
  cases hkey₂
  cases hsignature₂
  exact h r' (hbinding key _ _ signature hverify hverify')

/-- Characters that move from one field of the text to the next leave it as it is. -/
theorem Bound.unambiguous (h : Bound r) : Unambiguous r := by
  have hbytes (r' : ArtifactRecord) (heq : canonicalChars r' = canonicalChars r) :=
    h.bytes r' (canonicalSignedBytes_eq_iff.mpr heq)
  refine ⟨fun hmem ↦ ?_, fun hmem ↦ ?_, fun p hinfix ↦ ?_⟩
  · obtain ⟨a, b, hsplit⟩ := List.append_of_mem hmem
    have hid := congrArg Prod.fst (hbytes { r with
      artifactId := String.ofList a
      version := String.ofList (b ++ ':' :: r.version.toList) } (by simp [canonicalChars, hsplit]))
    rw [← String.toList_inj] at hid
    simp [ArtifactRecord.identity, hsplit] at hid
  · obtain ⟨a, b, hsplit⟩ := List.append_of_mem hmem
    have hversion := congrArg (·.2.1) (hbytes { r with
      artifactId := String.ofList (r.artifactId.toList ++ ':' :: a)
      version := String.ofList b } (by simp [canonicalChars, hsplit]))
    have hlength := congrArg (fun s ↦ s.toList.length) hversion
    simp only [ArtifactRecord.identity, hsplit, String.toList_ofList, List.length_append,
      List.length_cons] at hlength
    omega
  · obtain ⟨mid, after, hsplit⟩ := hinfix
    have hversion := congrArg (·.2.1) (hbytes { r with
      version := String.ofList (r.version.toList ++ ':' :: r.platform.digit :: mid)
      platform := p
      sha256Hex := String.ofList after } (by simp [canonicalChars, tagged, ← hsplit]))
    have hlength := congrArg (fun s ↦ s.toList.length) hversion
    simp only [ArtifactRecord.identity, String.toList_ofList, List.length_append,
      List.length_cons] at hlength
    omega

/-- Signed bytes and signatures are bound to one identity exactly when no field in front of the
checksum holds a separator and no platform can be read in the checksum. -/
theorem bound_iff (r : ArtifactRecord) : Bound r ↔ Unambiguous r :=
  ⟨Bound.unambiguous, fun h ↦ .of_bytes fun _ heq ↦
    h.identity_eq (canonicalSignedBytes_eq_iff.mp heq)⟩

/-- A separator in the id; whatever the scheme, a signature of the one record fits the other. -/
theorem separator_shifted :
    ¬Bound (release "a:b" "c") ∧ (release "a" "b:c").identity ≠ (release "a:b" "c").identity ∧
      ∀ scheme, (release "a" "b:c").verifySignature scheme =
        (release "a:b" "c").verifySignature scheme := by
  have hbytes : (release "a" "b:c").canonicalSignedBytes =
      (release "a:b" "c").canonicalSignedBytes :=
    canonicalSignedBytes_eq_iff.mpr (by decide)
  have hne : (release "a" "b:c").identity ≠ (release "a:b" "c").identity := by decide
  refine ⟨fun h ↦ hne (h.bytes _ hbytes), hne, fun scheme ↦ ?_⟩
  rw [ArtifactRecord.verifySignature, ArtifactRecord.verifySignature, hbytes]
  rfl

end Signing

end Aldivine.Updates.Catalog
