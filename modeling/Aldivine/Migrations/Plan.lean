import Aldivine.Migrations.Model
import Mathlib.Data.List.Induction

namespace Aldivine.Migrations.Plan

open Core.Error Model

def recorded (history : List AppliedMigration) (v : BitVec 64) : Bool :=
  (history.map (·.version)).contains v

def unchanged (history : List AppliedMigration) (m : Migration) : Bool :=
  (collected AppliedMigration.version history m.version).any (·.checksum == m.checksum)

section Planning

variable {m : Migrator} {history : List AppliedMigration} {v : BitVec 64}

theorem collected_eq_none {α : Type} {version : α → BitVec 64} {l : List α} :
    collected version l v = none ↔ v ∉ l.map version := by
  simp [collected]

theorem recorded_eq_true : recorded history v = true ↔ v ∈ history.map (·.version) :=
  List.contains_iff_mem

theorem recorded_eq_false : recorded history v = false ↔ v ∉ history.map (·.version) := by
  rw [← Bool.not_eq_true, recorded_eq_true]

theorem isSome_collected : (collected AppliedMigration.version history v).isSome =
    recorded history v := by
  rw [Bool.eq_iff_iff, recorded_eq_true, ← not_iff_not, ← collected_eq_none,
    Bool.not_eq_true, Option.isSome_eq_false_iff, Option.isNone_iff_eq_none]

def reported (history : List AppliedMigration) (migrations : List Migration) : MigrationReport where
  applied := (migrations.filter (fun m ↦ !recorded history m.version)).map (·.version)
  skipped := (migrations.filter (fun m ↦ recorded history m.version && unchanged history m)).map
    (·.version)
  drift := (migrations.filter (fun m ↦ recorded history m.version && !unchanged history m)).map
    (·.version)

theorem foldl_classify (migrations : List Migration) :
    migrations.foldl (Migrator.classify history) ⟨[], [], []⟩ = reported history migrations := by
  induction migrations using List.reverseRecOn with
  | nil => rfl
  | append_singleton migrations m ih =>
    rw [List.foldl_append, ih]
    have hsome : (collected AppliedMigration.version history m.version).isSome =
        recorded history m.version := isSome_collected
    simp only [List.foldl_cons, List.foldl_nil, Migrator.classify, reported, List.filter_append,
      List.map_append]
    cases hrecord : collected AppliedMigration.version history m.version with
    | none =>
      rw [hrecord] at hsome
      simp [← hsome]
    | some record =>
      rw [hrecord] at hsome
      by_cases hsum : record.checksum = m.checksum
      · simp [← hsome, unchanged, hrecord, hsum]
      · simp [← hsome, unchanged, hrecord, hsum]

theorem plan_eq : m.plan history = .ok (reported history m.migrations) :=
  congrArg Except.ok (foldl_classify m.migrations)

theorem versions_ascending (m : Migrator) : m.versions.Pairwise (· < ·) :=
  List.pairwise_map.mpr m.ascending

theorem nodup_of_ascending {l : List (BitVec 64)} (h : l.Pairwise (· < ·)) : l.Nodup := by
  refine h.imp (fun {a b} hlt he ↦ ?_)
  rw [he] at hlt
  exact BitVec.lt_irrefl b hlt

theorem versions_nodup (m : Migrator) : m.versions.Nodup :=
  nodup_of_ascending (versions_ascending m)

theorem filter_ascending (p : Migration → Bool) :
    ((m.migrations.filter p).map (·.version)).Pairwise (· < ·) :=
  (versions_ascending m).sublist (List.filter_sublist.map _)

theorem reported_perm (migrations : List Migration) :
    ((reported history migrations).applied ++ ((reported history migrations).skipped ++
      (reported history migrations).drift)).Perm (migrations.map (·.version)) := by
  simp only [reported, ← List.map_append]
  have hknown := List.filter_append_perm (unchanged history)
    (migrations.filter (fun m ↦ recorded history m.version))
  rw [List.filter_filter, List.filter_filter] at hknown
  simp only [Bool.and_comm] at hknown
  have hall := List.filter_append_perm (fun m ↦ !recorded history m.version) migrations
  simp only [Bool.not_not] at hall
  exact ((hknown.append_left _).trans hall).map _

end Planning

section Gaps

/-- In ascending order, what is picked comes first exactly when nothing is passed over before it. -/
theorem filter_prefix_iff {l : List (BitVec 64)} (h : l.Pairwise (· < ·)) (p : BitVec 64 → Bool) :
    l.filter p <+: l ↔ ∀ v ∈ l, p v = false → ∀ r ∈ l, p r = true → r < v := by
  induction l with
  | nil => simp
  | cons x l ih =>
    obtain ⟨hx, hl⟩ := List.pairwise_cons.mp h
    cases hp : p x with
    | true =>
      rw [List.filter_cons_of_pos hp, List.prefix_cons_inj, ih hl]
      simp only [List.forall_mem_cons, hp, Bool.true_eq_false, false_imp_iff, true_and,
        true_imp_iff]
      exact ⟨fun h v hv hpv ↦ ⟨hx v hv, h v hv hpv⟩, fun h v hv hpv ↦ (h v hv hpv).2⟩
    | false =>
      -- nothing behind `x` can be picked, on either side
      rw [List.filter_cons_of_neg (by simp [hp])]
      constructor
      · intro hpre v hv hpv r hr hpr
        have hr : r ∈ l.filter p :=
          List.mem_filter.mpr ⟨(List.mem_cons.mp hr).resolve_left (by rintro rfl; simp_all), hpr⟩
        rcases List.prefix_cons_iff.mp hpre with hnone | ⟨t, hhead, -⟩
        · rw [hnone] at hr
          cases hr
        · have hmem : x ∈ l.filter p := hhead ▸ List.mem_cons_self
          exact absurd (hx x (List.mem_of_mem_filter hmem)) (BitVec.lt_irrefl x)
      · intro hall
        have hnone : l.filter p = [] := by
          refine List.filter_eq_nil_iff.mpr (fun r hr hpr ↦ ?_)
          have hbelow := hall x List.mem_cons_self hp r (List.mem_cons_of_mem _ hr) hpr
          exact BitVec.lt_asymm (hx r hr) hbelow
        rw [hnone]
        exact List.nil_prefix

variable {m : Migrator} {history : List AppliedMigration}

def Gap (m : Migrator) (history : List AppliedMigration) : Prop :=
  ∃ v ∈ m.versions, v ∉ history.map (·.version) ∧
    ∃ r ∈ history.map (·.version), r ∈ m.versions ∧ v < r

/-- Nothing is planned below a recorded version that is known, and a gap is an error. -/
def InOrder (m : Migrator) (history : List AppliedMigration) : Prop :=
  (∀ report, m.plan history = .ok report →
    ∀ v ∈ report.applied, ∀ r ∈ history.map (·.version), r ∈ m.versions → r < v) ∧
  (Gap m history → ∃ e, m.plan history = .error e)

/-- The plan keeps the order exactly when the recorded versions are the first of those available. -/
theorem plan_inOrder_iff (m : Migrator) (history : List AppliedMigration) :
    InOrder m history ↔ m.versions.filter (recorded history) <+: m.versions := by
  have happlied (v : BitVec 64) : v ∈ (reported history m.migrations).applied ↔
      v ∈ m.versions ∧ v ∉ history.map (·.version) := by
    simp only [reported, Migrator.versions, List.mem_map, List.mem_filter, Bool.not_eq_true',
      recorded_eq_false]
    grind
  rw [filter_prefix_iff (versions_ascending m)]
  simp only [InOrder, plan_eq, Except.ok.injEq, forall_eq', happlied, recorded_eq_true,
    recorded_eq_false]
  constructor
  · intro h v hv hunrecorded r hr hrecorded
    exact h.1 v ⟨hv, hunrecorded⟩ r hrecorded hr
  · intro h
    refine ⟨fun v hv r hrecorded hr ↦ h v hv.1 hv.2 r hr hrecorded, ?_⟩
    rintro ⟨v, hv, hunrecorded, r, hrecorded, hr, hlt⟩
    exact absurd (h v hv hunrecorded r hr hrecorded) (BitVec.lt_asymm hlt)

theorem new_eq_ok {migrations : List Migration} {m : Migrator}
    (h : Migrator.new migrations = .ok m) :
    m.migrations.Perm migrations ∧ (migrations.map (·.version)).Nodup := by
  unfold Migrator.new at h
  split at h
  · cases h
  · rename_i hnone
    cases h
    exact ⟨List.mergeSort_perm _ _, (nodup_of_duplicate hnone).1⟩

theorem exists_new {migrations : List Migration} (h : duplicate [] migrations = none) :
    ∃ m, Migrator.new migrations = .ok m := by
  unfold Migrator.new
  split
  · simp_all
  · exact ⟨_, rfl⟩

def players : Migration := ⟨1, "players", "CREATE TABLE players;"⟩

def vehicles : Migration := ⟨2, "vehicles", "CREATE TABLE vehicles;"⟩

theorem gap_is_planned : ∃ m, Migrator.new [players, vehicles] = .ok m ∧
    ¬InOrder m [⟨2, "vehicles", vehicles.checksum⟩] := by
  obtain ⟨m, hm⟩ := @exists_new [players, vehicles] (by decide)
  have hversions : m.versions.Perm [1, 2] := (new_eq_ok hm).1.map _
  refine ⟨m, hm, fun h ↦ ?_⟩
  have hgap : Gap m [⟨2, "vehicles", vehicles.checksum⟩] :=
    ⟨1, hversions.mem_iff.mpr (by decide), by simp, 2, by simp, hversions.mem_iff.mpr (by decide),
      by decide⟩
  obtain ⟨e, he⟩ := h.2 hgap
  rw [plan_eq] at he
  cases he

end Gaps

section Resuming

variable {m : Migrator} {history : List AppliedMigration}

/-- The row a statement adds to the history; `versionOf` reads the column back. -/
def rowOf (versionOf : ℤ → BitVec 64) : Query → Option AppliedMigration
  | ⟨sql, [.int version, .text description, .text checksum]⟩ =>
    if sql = "INSERT INTO schema_history (version, description, checksum) VALUES (?, ?, ?)" then
      some ⟨versionOf version, description, checksum⟩
    else none
  | _ => none

def pending (m : Migrator) (history : List AppliedMigration) : List Migration :=
  m.migrations.filter (fun x ↦ !recorded history x.version)

theorem collected_self {x : Migration} (hx : x ∈ m.migrations) :
    collected Migration.version m.migrations x.version = some x := by
  have hnodup : (m.migrations.map (·.version)).Nodup := versions_nodup m
  cases hfound : collected Migration.version m.migrations x.version with
  | none => exact absurd (List.mem_map_of_mem hx) (collected_eq_none.mp hfound)
  | some y =>
    have hy : y ∈ m.migrations := List.mem_reverse.mp (List.mem_of_find?_eq_some hfound)
    have hversion : y.version = x.version := by simpa using List.find?_some hfound
    rw [List.inj_on_of_nodup_map hnodup hy hx hversion]

theorem statementsFor_pending {migrations : List Migration}
    (h : ∀ x ∈ migrations, x ∈ m.migrations) {report : MigrationReport}
    (hreport : report.applied = migrations.map (·.version)) :
    m.statementsFor report =
      .ok (migrations.flatMap (fun x ↦ [.raw x.up, insertHistory x])) := by
  rw [Migrator.statementsFor, hreport]
  induction migrations using List.reverseRecOn generalizing report with
  | nil => rfl
  | append_singleton migrations x ih =>
    rw [List.forall_mem_append, List.forall_mem_singleton] at h
    rw [List.map_append, List.foldlM_append, @ih h.1 ⟨migrations.map (·.version), [], []⟩ rfl]
    simp only [List.map_cons, List.map_nil, List.foldlM_cons, List.foldlM_nil, bind_pure,
      List.flatMap_append, List.flatMap_cons, List.flatMap_nil, List.append_nil]
    rw [collected_self h.2]
    rfl

theorem take_flatMap_pair {α β : Type} (f g : α → β) (l : List α) (k : ℕ) :
    (l.flatMap (fun x ↦ [f x, g x])).take (2 * k) =
      (l.take k).flatMap (fun x ↦ [f x, g x]) := by
  induction l generalizing k with
  | nil => simp
  | cons x l ih =>
    cases k with
    | zero => rfl
    | succ k =>
      rw [List.flatMap_cons, List.take_succ_cons, List.flatMap_cons, ← ih k]
      rfl

theorem filter_notMem_take {l : List (BitVec 64)} (h : l.Nodup) (k : ℕ) :
    l.filter (fun v ↦ decide (v ∉ l.take k)) = l.drop k := by
  have hsplit : (l.take k ++ l.drop k).filter (fun v ↦ decide (v ∉ l.take k)) = l.drop k := by
    have hnone : (l.take k).filter (fun v ↦ decide (v ∉ l.take k)) = [] := by
      simp
    have hall : (l.drop k).filter (fun v ↦ decide (v ∉ l.take k)) = l.drop k := by
      refine List.filter_eq_self.mpr (fun v hv ↦ decide_eq_true (fun hmem ↦ ?_))
      exact List.disjoint_take_drop h le_rfl hmem hv
    rw [List.filter_append, hnone, hall, List.nil_append]
  rwa [List.take_append_drop] at hsplit

theorem applied_eq (history : List AppliedMigration) :
    (reported history m.migrations).applied = m.versions.filter (fun v ↦ !recorded history v) := by
  rw [Migrator.versions, List.filter_map]
  rfl

theorem rows_versions {versionOf : ℤ → BitVec 64}
    (hread : ∀ v : BitVec 64, versionOf v.toInt = v) (migrations : List Migration) :
    ((migrations.flatMap (fun x ↦ [Query.raw x.up, insertHistory x])).filterMap
      (rowOf versionOf)).map (·.version) = migrations.map (·.version) := by
  induction migrations with
  | nil => rfl
  | cons x migrations ih =>
    rw [List.flatMap_cons, List.filterMap_append, List.map_append, ih, List.map_cons]
    exact congrArg (· :: _) (hread x.version)

theorem second_applied {versionOf : ℤ → BitVec 64} (hread : ∀ v : BitVec 64, versionOf v.toInt = v)
    (k : ℕ) {later : List AppliedMigration}
    (hlater : later.Perm (history ++ (((pending m history).flatMap
      (fun x ↦ [Query.raw x.up, insertHistory x])).take (2 * k)).filterMap (rowOf versionOf))) :
    (reported later m.migrations).applied = (reported history m.migrations).applied.drop k := by
  have hrecorded (v : BitVec 64) : recorded later v =
      (recorded history v || decide (v ∈ (reported history m.migrations).applied.take k)) := by
    have hrows := rows_versions hread ((pending m history).take k)
    rw [← take_flatMap_pair] at hrows
    have hmem : v ∈ later.map (·.version) ↔
        v ∈ history.map (·.version) ∨ v ∈ (reported history m.migrations).applied.take k := by
      rw [(hlater.map _).mem_iff, List.map_append, hrows, List.map_take, List.mem_append]
      rfl
    rw [Bool.eq_iff_iff, Bool.or_eq_true, recorded_eq_true, recorded_eq_true, decide_eq_true_eq]
    exact hmem
  have hnodup : (reported history m.migrations).applied.Nodup :=
    nodup_of_ascending (filter_ascending _)
  rw [← filter_notMem_take hnodup, applied_eq, applied_eq, List.filter_filter]
  refine List.filter_congr (fun v _ ↦ ?_)
  rw [hrecorded, applied_eq]
  simp only [Bool.not_or, decide_not, Bool.and_comm]

/-- The three lists of a plan split the available versions, each in ascending order, and after any
number of whole pairs of statements a second plan has the rest of the first one's work to do. -/
theorem plan_resumes {versionOf : ℤ → BitVec 64} (hread : ∀ v : BitVec 64, versionOf v.toInt = v)
    {migrations : List Migration} (hnew : Migrator.new migrations = .ok m)
    (history : List AppliedMigration) :
    ∃ report, m.plan history = .ok report ∧
      report.applied.Pairwise (· < ·) ∧ report.skipped.Pairwise (· < ·) ∧
      report.drift.Pairwise (· < ·) ∧
      (report.applied ++ (report.skipped ++ report.drift)).Perm (migrations.map (·.version)) ∧
      (report.applied ++ (report.skipped ++ report.drift)).Nodup ∧
      ∃ planned statements, planned.map (·.version) = report.applied ∧ planned ⊆ migrations ∧
        m.statementsFor report = .ok statements ∧
        statements = planned.flatMap (fun x ↦ [.raw x.up, insertHistory x]) ∧
        ∀ k later, later.Perm (history ++ (statements.take (2 * k)).filterMap (rowOf versionOf)) →
          ∃ second, m.plan later = .ok second ∧ second.applied = report.applied.drop k ∧
            ∀ v ∈ report.applied.take k, v ∉ second.applied := by
  obtain ⟨hperm, hnodup⟩ := new_eq_ok hnew
  have hpartition := (@reported_perm history m.migrations).trans (hperm.map (·.version))
  have hstatements := statementsFor_pending (fun x hx ↦ List.mem_of_mem_filter hx)
    (rfl : (reported history m.migrations).applied = (pending m history).map (·.version))
  refine ⟨_, plan_eq, filter_ascending _, filter_ascending _, filter_ascending _, hpartition,
    hpartition.nodup_iff.mpr hnodup, pending m history, _, rfl, ?_, hstatements, rfl,
    fun k later hlater ↦ ?_⟩
  · exact fun x hx ↦ hperm.mem_iff.mp (List.mem_of_mem_filter hx)
  · have hrest := second_applied hread k hlater
    refine ⟨_, plan_eq, hrest, fun v hv hagain ↦ ?_⟩
    rw [hrest] at hagain
    exact List.disjoint_take_drop (nodup_of_ascending (filter_ascending _)) le_rfl hv hagain

def sample : List Migration := [⟨0x8000000000000005, "third", "c"⟩, players, vehicles]

theorem sample_resumes : ∃ m report statements, Migrator.new sample = .ok m ∧
    m.plan [⟨1, "players", players.checksum⟩] = .ok report ∧
    m.statementsFor report = .ok statements ∧
    ∃ second, m.plan ([⟨1, "players", players.checksum⟩] ++
        (statements.take (2 * 1)).filterMap (rowOf (BitVec.ofInt 64))) = .ok second ∧
      second.applied = report.applied.drop 1 := by
  obtain ⟨m, hm⟩ := @exists_new sample (by decide)
  obtain ⟨report, hreport, -, -, -, -, -, _, statements, -, -, hstatements, -, hsecond⟩ :=
    plan_resumes (fun _ ↦ BitVec.ofInt_toInt) hm [⟨1, "players", players.checksum⟩]
  obtain ⟨second, hplan, happlied, -⟩ := hsecond 1 _ (List.Perm.refl _)
  exact ⟨m, report, statements, hm, hreport, hstatements, second, hplan, happlied⟩

end Resuming

end Aldivine.Migrations.Plan
