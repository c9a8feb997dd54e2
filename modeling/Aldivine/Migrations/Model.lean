import Aldivine.Core.Basics
import Aldivine.Foundation.Text
import Mathlib.Data.List.Nodup
import Mathlib.Order.Basic

namespace Aldivine.Migrations.Model

open Core.Error Foundation.Text

structure Migration where
  version : BitVec 64
  description : String
  up : String
deriving DecidableEq

/-- The closure `feed` of `checksum`, FNV-1a. -/
def feed (h : BitVec 64) (bytes : List UInt8) : BitVec 64 :=
  bytes.foldl (fun h b ↦ (h ^^^ BitVec.ofNat 64 b.toNat) * 0x100000001b3) h

/-- `format!("{h:016x}")`. -/
def hex (h : BitVec 64) : String :=
  let digits := Nat.toDigits 16 h.toNat
  String.ofList (List.replicate (16 - digits.length) '0' ++ digits)

def Migration.checksum (m : Migration) : String :=
  let h := feed 0xcbf29ce484222325 (utf8 (toString m.version.toNat))
  let h := feed h [0]
  let h := feed h (utf8 m.description)
  let h := feed h [0]
  hex (feed h (utf8 m.up))

structure AppliedMigration where
  version : BitVec 64
  description : String
  checksum : String
deriving DecidableEq

structure MigrationReport where
  applied : List (BitVec 64)
  skipped : List (BitVec 64)
  drift : List (BitVec 64)
deriving DecidableEq

/-- A map that is collected from a list keeps the last entry of a key. -/
def collected {α : Type} (version : α → BitVec 64) (l : List α) (v : BitVec 64) : Option α :=
  l.reverse.find? (fun x ↦ version x == v)

def duplicate : List (BitVec 64) → List Migration → Option (BitVec 64)
  | _, [] => none
  | seen, m :: migrations =>
    if m.version ∈ seen then some m.version else duplicate (m.version :: seen) migrations

theorem nodup_of_duplicate {seen : List (BitVec 64)} {migrations : List Migration}
    (h : duplicate seen migrations = none) :
    (migrations.map (·.version)).Nodup ∧ ∀ m ∈ migrations, m.version ∉ seen := by
  induction migrations generalizing seen with
  | nil => exact ⟨.nil, List.forall_mem_nil _⟩
  | cons m migrations ih =>
    rw [duplicate] at h
    split at h
    · cases h
    rename_i hseen
    obtain ⟨hnodup, hfresh⟩ := ih h
    refine ⟨List.nodup_cons.mpr ⟨fun hmem ↦ ?_, hnodup⟩, List.forall_mem_cons.mpr ⟨hseen, ?_⟩⟩
    · obtain ⟨m', hm', heq⟩ := List.mem_map.mp hmem
      exact hfresh m' hm' (heq ▸ List.mem_cons_self)
    · exact fun m' hm' hmem ↦ hfresh m' hm' (List.mem_cons_of_mem _ hmem)

/-- `sort_by_key(|m| m.version)`, which is stable. -/
def sortByVersion (migrations : List Migration) : List Migration :=
  migrations.mergeSort (fun a b ↦ decide (a.version ≤ b.version))

theorem sortByVersion_ascending {migrations : List Migration}
    (h : (migrations.map (·.version)).Nodup) :
    (sortByVersion migrations).Pairwise (fun a b ↦ a.version < b.version) := by
  have hle : (sortByVersion migrations).Pairwise
      (fun a b ↦ decide (a.version ≤ b.version) = true) := by
    refine List.pairwise_mergeSort (fun a b c hab hbc ↦ ?_) (fun a b ↦ ?_) migrations
    · simp only [decide_eq_true_eq] at hab hbc ⊢
      exact BitVec.le_trans hab hbc
    · simp only [Bool.or_eq_true, decide_eq_true_eq]
      exact BitVec.le_total _ _
  have hperm : (sortByVersion migrations).Perm migrations := List.mergeSort_perm _ _
  have hne : (sortByVersion migrations).Pairwise (fun a b ↦ a.version ≠ b.version) :=
    List.pairwise_map.mp ((hperm.map _).nodup_iff.mpr h)
  refine (hle.and hne).imp (fun {a b} hab ↦ ?_)
  exact BitVec.lt_of_le_ne (of_decide_eq_true hab.1) hab.2

structure Migrator where
  migrations : List Migration
  ascending : migrations.Pairwise (fun a b ↦ a.version < b.version)

namespace Migrator

def new (migrations : List Migration) : Except AldError Migrator :=
  match h : duplicate [] migrations with
  | some version =>
    .error (.invalidArgument ("duplicate migration version " ++ toString version.toNat))
  | none => .ok ⟨sortByVersion migrations, sortByVersion_ascending (nodup_of_duplicate h).1⟩

def versions (m : Migrator) : List (BitVec 64) := m.migrations.map (·.version)

def classify (applied : List AppliedMigration) (report : MigrationReport) (m : Migration) :
    MigrationReport :=
  match collected AppliedMigration.version applied m.version with
  | none => { report with applied := report.applied ++ [m.version] }
  | some record =>
    if record.checksum ≠ m.checksum then { report with drift := report.drift ++ [m.version] }
    else { report with skipped := report.skipped ++ [m.version] }

/-- The second loop, which looks for gaps, has an empty body. -/
def plan (m : Migrator) (applied : List AppliedMigration) : Except AldError MigrationReport :=
  .ok (m.migrations.foldl (classify applied) ⟨[], [], []⟩)

end Migrator

inductive Param
  | text (text : String)
  | int (n : ℤ)
  | bool (b : Bool)
  | null
deriving DecidableEq

structure Query where
  sql : String
  params : List Param
deriving DecidableEq

def Query.raw (sql : String) : Query := ⟨sql, []⟩

def Query.bind (q : Query) (p : Param) : Query := { q with params := q.params ++ [p] }

/-- `version as i64` is the signed reading of the word. -/
def insertHistory (m : Migration) : Query :=
  (((Query.raw "INSERT INTO schema_history (version, description, checksum) VALUES (?, ?, ?)").bind
    (.int m.version.toInt)).bind (.text m.description)).bind (.text m.checksum)

def Migrator.statementsFor (m : Migrator) (report : MigrationReport) :
    Except AldError (List Query) :=
  report.applied.foldlM (fun out version ↦
    match collected Migration.version m.migrations version with
    | none => .error (.invalidArgument ("unknown migration " ++ toString version.toNat))
    | some m => .ok (out ++ [.raw m.up, insertHistory m])) []

end Aldivine.Migrations.Model
