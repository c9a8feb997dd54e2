import Aldivine.Foundation.Fallible
import Aldivine.Foundation.Machine
import Aldivine.Foundation.Table

namespace Aldivine.Backups.Archives

open Foundation.Fallible Foundation.Machine Foundation.Table

inductive BackupKind
  | full
  | incremental (parentBackupId : String)
deriving DecidableEq

structure BackupEntry where
  relativePath : String
  sha256Hex : String
  sizeBytes : BitVec 64
deriving DecidableEq

structure BackupManifest where
  backupId : String
  createdAtUtc : String
  kind : BackupKind
  serverVersion : String
  dbMigrationVersion : BitVec 64
  entries : List BackupEntry
  totalBytes : BitVec 64
deriving DecidableEq

inductive BackupError
  | emptyBackup
  | entryNotFound (path : String)
  | hashMismatch (path expected actual : String)
  | incompatibleDbMigration (backupVersion targetVersion : BitVec 64)
deriving DecidableEq

/-- The bytes of a file: a `Vec` holds at most `isize::MAX` of them. -/
abbrev Content := { bytes : List UInt8 // bytes.length < 2 ^ 63 }

structure BackupArchive where
  manifest : BackupManifest
  files : AList (fun _ : String ↦ Content)

structure RestorePlan where
  backupId : String
  fileCount : ℕ
  totalBytes : BitVec 64
  requiresMigrationSync : Bool
deriving DecidableEq

section Model

variable (sha256 : List UInt8 → String)

def entryOf (path : String) (content : Content) : BackupEntry :=
  ⟨path, sha256 content.1, BitVec.ofNat 64 content.1.length⟩

def listFiles (files : AList (fun _ : String ↦ Content)) : List BackupEntry :=
  files.entries.map (fun file ↦ entryOf sha256 file.1 file.2)

/-- The order in which a `HashMap` gives its files does not matter: their paths differ, and the
entries are sorted by path. -/
def BackupArchive.create (mode : Overflow) (backupId : String) (kind : BackupKind)
    (serverVersion : String) (dbMigrationVersion : BitVec 64)
    (files : AList (fun _ : String ↦ Content)) : Outcome BackupError BackupArchive :=
  if files.entries.isEmpty then .err .emptyBackup
  else
    match mode.sumOf (fun entry ↦ some entry.sizeBytes) (listFiles sha256 files) with
    | none => .panic
    | some totalBytes => .ok
      { manifest :=
          { backupId := backupId
            createdAtUtc := "2026-09-16T00:00:00Z"
            kind := kind
            serverVersion := serverVersion
            dbMigrationVersion := dbMigrationVersion
            entries := (listFiles sha256 files).mergeSort
              (fun a b ↦ a.relativePath ≤ b.relativePath)
            totalBytes := totalBytes }
        files := files }

namespace BackupArchive

def verifyEntry (a : BackupArchive) (entry : BackupEntry) : Except BackupError Unit :=
  match a.files.lookup entry.relativePath with
  | none => .error (.entryNotFound entry.relativePath)
  | some content =>
    if sha256 content.1 ≠ entry.sha256Hex then
      .error (.hashMismatch entry.relativePath entry.sha256Hex (sha256 content.1))
    else .ok ()

def verifyIntegrity (a : BackupArchive) : Except BackupError Unit :=
  forM a.manifest.entries (a.verifyEntry sha256)

def planRestore (a : BackupArchive) (targetDbVersion : BitVec 64) (allowMigrationGap : Bool) :
    Except BackupError RestorePlan := do
  a.verifyIntegrity sha256
  let requiresMigrationSync := a.manifest.dbMigrationVersion != targetDbVersion
  if requiresMigrationSync && !allowMigrationGap then
    .error (.incompatibleDbMigration a.manifest.dbMigrationVersion targetDbVersion)
  else
    .ok ⟨a.manifest.backupId, a.manifest.entries.length, a.manifest.totalBytes,
      requiresMigrationSync⟩

end BackupArchive

structure Describes (a : BackupArchive) : Prop where
  listed : ∀ path content, a.files.lookup path = some content →
    a.manifest.entries.countP (fun entry ↦ entry.relativePath == path) = 1
  present : ∀ entry ∈ a.manifest.entries, ∃ content,
    a.files.lookup entry.relativePath = some content ∧
      entry.sha256Hex = sha256 content.1 ∧ entry.sizeBytes.toNat = content.1.length
  total : a.manifest.totalBytes.toNat = (a.files.entries.map (fun file ↦ file.2.1.length)).sum

/-- The manifest lists what `create` lists for these files, in any order, and their total. -/
structure AsCreated (a : BackupArchive) : Prop where
  entries : a.manifest.entries.Perm (listFiles sha256 a.files)
  total : a.manifest.totalBytes.toNat =
    (a.manifest.entries.map (fun entry ↦ entry.sizeBytes.toNat)).sum

def Tampered (a : BackupArchive) (entry : BackupEntry) : Prop :=
  ∀ content, a.files.lookup entry.relativePath = some content →
    sha256 content.1 ≠ entry.sha256Hex

end Model

variable {sha256 : List UInt8 → String} {a : BackupArchive} {entry : BackupEntry} {path : String}
  {content : Content}

theorem verifyEntry_eq_ok :
    a.verifyEntry sha256 entry = .ok () ↔ ¬ Tampered sha256 a entry := by
  unfold BackupArchive.verifyEntry Tampered
  cases hfile : a.files.lookup entry.relativePath with
  | none => simp
  | some content =>
    dsimp only
    split
    · rename_i hhash
      simpa using hhash
    · rename_i hhash
      simpa using not_not.mp hhash

theorem verifyIntegrity_eq_ok :
    a.verifyIntegrity sha256 = .ok () ↔ ¬ ∃ entry ∈ a.manifest.entries, Tampered sha256 a entry := by
  unfold BackupArchive.verifyIntegrity
  rw [forM_eq_ok]
  simp only [verifyEntry_eq_ok, not_exists, not_and]

theorem verified_of_planRestore {targetDbVersion : BitVec 64} {allowMigrationGap : Bool}
    {plan : RestorePlan} (h : a.planRestore sha256 targetDbVersion allowMigrationGap = .ok plan) :
    a.verifyIntegrity sha256 = .ok () := by
  obtain ⟨_, hverified, -⟩ := bind_eq_ok.mp h
  exact hverified

theorem size_entryOf (path : String) (content : Content) :
    (entryOf sha256 path content).sizeBytes.toNat = content.1.length := by
  have hlt : content.1.length < 2 ^ 64 := content.2.trans (by decide)
  rw [entryOf, BitVec.toNat_ofNat, Nat.mod_eq_of_lt hlt]

theorem mem_listFiles {files : AList (fun _ : String ↦ Content)} :
    entry ∈ listFiles sha256 files ↔
      ∃ content, files.lookup entry.relativePath = some content ∧
        entry = entryOf sha256 entry.relativePath content := by
  unfold listFiles
  rw [List.mem_map]
  constructor
  · intro h
    obtain ⟨⟨path, content⟩, hfile, rfl⟩ := h
    exact ⟨content, AList.mem_lookup_iff.mpr hfile, rfl⟩
  · intro h
    obtain ⟨content, hfile, hentry⟩ := h
    exact ⟨⟨entry.relativePath, content⟩, AList.mem_lookup_iff.mp hfile, hentry.symm⟩

theorem nodup_paths (files : AList (fun _ : String ↦ Content)) :
    ((listFiles sha256 files).map BackupEntry.relativePath).Nodup := by
  have hkeys : (listFiles sha256 files).map BackupEntry.relativePath = files.keys := by
    simp only [listFiles, List.map_map]
    rfl
  rw [hkeys]
  exact files.keys_nodup

theorem countP_path_eq (l : List BackupEntry) :
    l.countP (fun entry ↦ entry.relativePath == path) =
      (l.map BackupEntry.relativePath).count path := by
  rw [List.count, List.countP_map]
  rfl

theorem countP_listFiles {files : AList (fun _ : String ↦ Content)}
    (hfile : files.lookup path = some content) :
    (listFiles sha256 files).countP (fun entry ↦ entry.relativePath == path) = 1 := by
  rw [countP_path_eq]
  refine List.count_eq_one_of_mem (nodup_paths files) (List.mem_map.mpr ?_)
  exact ⟨entryOf sha256 path content, mem_listFiles.mpr ⟨content, hfile, rfl⟩, rfl⟩

theorem sum_listFiles (files : AList (fun _ : String ↦ Content)) :
    ((listFiles sha256 files).map (fun entry ↦ entry.sizeBytes.toNat)).sum =
      (files.entries.map (fun file ↦ file.2.1.length)).sum := by
  simp only [listFiles, List.map_map]
  exact congrArg List.sum (List.map_congr_left (fun file _ ↦ size_entryOf file.1 file.2))

theorem Describes.entry_eq (h : Describes sha256 a) (hentry : entry ∈ a.manifest.entries) :
    entry ∈ listFiles sha256 a.files := by
  obtain ⟨content, hfile, hhash, hsize⟩ := h.present entry hentry
  refine mem_listFiles.mpr ⟨content, hfile, ?_⟩
  have hsize' : entry.sizeBytes = (entryOf sha256 entry.relativePath content).sizeBytes :=
    BitVec.eq_of_toNat_eq (hsize.trans (size_entryOf _ _).symm)
  obtain ⟨path, hash, size⟩ := entry
  simp only [entryOf] at hhash hsize' ⊢
  rw [hhash, hsize']

theorem Describes.perm (h : Describes sha256 a) :
    a.manifest.entries.Perm (listFiles sha256 a.files) := by
  have hnodup : a.manifest.entries.Nodup := by
    refine List.nodup_iff_count_le_one.mpr (fun entry ↦ ?_)
    by_cases hentry : entry ∈ a.manifest.entries
    · obtain ⟨content, hfile, -⟩ := h.present entry hentry
      rw [← h.listed entry.relativePath content hfile]
      exact List.countP_mono_left (fun other _ heq ↦ by simp [eq_of_beq heq])
    · rw [List.count_eq_zero.mpr hentry]
      exact Nat.zero_le 1
  apply (List.perm_ext_iff_of_nodup hnodup (List.Nodup.of_map _ (nodup_paths a.files))).mpr
  intro entry
  constructor
  · exact h.entry_eq
  · intro hentry
    obtain ⟨content, hfile, heq⟩ := mem_listFiles.mp hentry
    -- the one entry under this path is the one that `create` writes
    have hpos : 0 < a.manifest.entries.countP (fun e ↦ e.relativePath == entry.relativePath) :=
      h.listed entry.relativePath content hfile ▸ Nat.one_pos
    obtain ⟨other, hother, hpath⟩ := List.countP_pos_iff.mp hpos
    obtain ⟨content', hfile', heq'⟩ := mem_listFiles.mp (h.entry_eq hother)
    rw [eq_of_beq hpath] at hfile' heq'
    cases hfile.symm.trans hfile'
    rwa [heq, ← heq']

theorem describes_iff : Describes sha256 a ↔ AsCreated sha256 a := by
  constructor
  · intro h
    refine ⟨h.perm, ?_⟩
    rw [h.total, (h.perm.map _).sum_eq, sum_listFiles]
  · intro h
    refine ⟨fun path content hfile ↦ ?_, fun entry hentry ↦ ?_, ?_⟩
    · rw [h.entries.countP_eq, countP_listFiles hfile]
    · obtain ⟨content, hfile, heq⟩ := mem_listFiles.mp (h.entries.mem_iff.mp hentry)
      refine ⟨content, hfile, ?_, ?_⟩
      · rw [heq]
        rfl
      · rw [heq, size_entryOf]
    · rw [h.total, (h.entries.map _).sum_eq, sum_listFiles]

/-- A verified archive, and one that a restore is planned from, describes its files exactly when an
entry is without its file or the manifest lists what `create` lists. -/
theorem verified_describes_iff (sha256 : List UInt8 → String) (a : BackupArchive) :
    (a.verifyIntegrity sha256 = .ok () → Describes sha256 a) ∧
        (∀ targetDbVersion allowMigrationGap plan,
          a.planRestore sha256 targetDbVersion allowMigrationGap = .ok plan →
            Describes sha256 a) ↔
      (∃ entry ∈ a.manifest.entries, Tampered sha256 a entry) ∨ AsCreated sha256 a := by
  have hverify : (a.verifyIntegrity sha256 = .ok () → Describes sha256 a) ↔
      (∃ entry ∈ a.manifest.entries, Tampered sha256 a entry) ∨ AsCreated sha256 a := by
    rw [verifyIntegrity_eq_ok, describes_iff, ← or_iff_not_imp_left]
  constructor
  · intro h
    exact hverify.mp h.1
  · intro h
    have hdescribes := hverify.mpr h
    exact ⟨hdescribes, fun _ _ _ hplan ↦ hdescribes (verified_of_planRestore hplan)⟩

/-- What `create` puts together is verified and describes its files. -/
theorem create_described {mode : Overflow} {backupId serverVersion : String} {kind : BackupKind}
    {dbMigrationVersion : BitVec 64} {files : AList (fun _ : String ↦ Content)}
    (hcreate : BackupArchive.create sha256 mode backupId kind serverVersion dbMigrationVersion files
      = .ok a) (hfits : (files.entries.map (fun file ↦ file.2.1.length)).sum < 2 ^ 64) :
    a.verifyIntegrity sha256 = .ok () ∧ Describes sha256 a := by
  unfold BackupArchive.create at hcreate
  split at hcreate
  · cases hcreate
  · rw [sumOf_some, sum_listFiles, word_of_lt hfits] at hcreate
    cases hcreate
    have hsorted := List.mergeSort_perm (listFiles sha256 files)
      (fun a b ↦ decide (a.relativePath ≤ b.relativePath))
    constructor
    · rw [verifyIntegrity_eq_ok]
      intro h
      obtain ⟨entry, hentry, htampered⟩ := h
      obtain ⟨content, hfile, heq⟩ := mem_listFiles.mp (hsorted.mem_iff.mp hentry)
      exact htampered content hfile (congrArg BackupEntry.sha256Hex heq).symm
    · refine describes_iff.mpr ⟨hsorted, ?_⟩
      rw [BitVec.toNat_ofNat, Nat.mod_eq_of_lt hfits, (hsorted.map _).sum_eq, sum_listFiles]

/-- SHA-256 on the empty input, the only one that is hashed below. -/
def emptySha256 : List UInt8 → String :=
  fun _ ↦ "e3b0c44298fc1c149afbf4c8996fb92427ae41e4649b934ca495991b7852b855"

/-- The backup of an empty file, with a file more than its manifest lists. -/
def smuggled : BackupArchive where
  manifest :=
    { backupId := "bk-100"
      createdAtUtc := "2026-09-16T00:00:00Z"
      kind := .full
      serverVersion := "0.1.0"
      dbMigrationVersion := 12
      entries := [entryOf emptySha256 "server.cfg" ⟨[], by decide⟩]
      totalBytes := 0 }
  files := (AList.singleton "server.cfg" ⟨[], by decide⟩).insert "init.lua" ⟨[], by decide⟩

theorem smuggled_verified :
    ¬ ((smuggled.verifyIntegrity emptySha256 = .ok () → Describes emptySha256 smuggled) ∧
      ∀ targetDbVersion allowMigrationGap plan,
        smuggled.planRestore emptySha256 targetDbVersion allowMigrationGap = .ok plan →
          Describes emptySha256 smuggled) := by
  intro h
  have hverified : smuggled.verifyIntegrity emptySha256 = .ok () := rfl
  have hlisted := (h.1 hverified).listed "init.lua" ⟨[], by decide⟩ rfl
  have hunlisted : smuggled.manifest.entries.countP
      (fun entry ↦ entry.relativePath == "init.lua") = 0 := by decide
  exact absurd (hunlisted.symm.trans hlisted) (by decide)

end Aldivine.Backups.Archives
