import Aldivine.Foundation.Ascending
import Aldivine.Foundation.Table

namespace Aldivine.LagCompensation.History

open Foundation Foundation.Ascending Foundation.Table

/-- The arithmetic of `f32` is that of `F`. -/
structure Vec3 (F : Type) where
  x : F
  y : F
  z : F
deriving DecidableEq

/-- An entity's positions ascend by tick. -/
structure HistoryBuffer (F : Type) where
  capacityTicks : ℕ
  samples : AList (fun _ : ℕ ↦ List (ℕ × Vec3 F))

variable {F : Type}

/-- `while entry.len() > capacity { entry.pop_first(); }`. -/
def prune (capacity : ℕ) : List (ℕ × Vec3 F) → List (ℕ × Vec3 F)
  | [] => []
  | e :: rest => if capacity < (e :: rest).length then prune capacity rest else e :: rest

namespace HistoryBuffer

def new (capacityTicks : ℕ) : HistoryBuffer F := ⟨max capacityTicks 2, ∅⟩

/-- `samples.entry(entity).or_default()`. -/
def entry (b : HistoryBuffer F) (entity : ℕ) : List (ℕ × Vec3 F) :=
  (b.samples.lookup entity).getD []

def record (b : HistoryBuffer F) (entity tick : ℕ) (pos : Vec3 F) : HistoryBuffer F :=
  { b with
      samples := b.samples.insert entity
        (prune b.capacityTicks (Ascending.insert tick pos (b.entry entity))) }

section At

variable [Add F] [Sub F] [Mul F] [Div F] [NatCast F]

def lerp (tick : ℕ) (before after : ℕ × Vec3 F) : Vec3 F :=
  let f : F := ((tick - before.1 : ℕ) : F) / ((after.1 - before.1 : ℕ) : F)
  let p₀ := before.2
  let p₁ := after.2
  ⟨p₀.x + (p₁.x - p₀.x) * f, p₀.y + (p₁.y - p₀.y) * f, p₀.z + (p₁.z - p₀.z) * f⟩

def atTick (b : HistoryBuffer F) (entity tick : ℕ) : Option (Vec3 F) := do
  let entry ← b.samples.lookup entity
  match entry.find? (fun e ↦ decide (e.1 = tick)) with
  | some e => return e.2
  | none =>
    let before ← (entry.filter (fun e ↦ decide (e.1 < tick))).getLast?
    let after ← (entry.filter (fun e ↦ decide (tick ≤ e.1))).head?
    if after.1 = before.1 then return before.2
    return lerp tick before after

end At

end HistoryBuffer

structure Write (F : Type) where
  entity : ℕ
  tick : ℕ
  pos : Vec3 F

def recorded (capacity : ℕ) (writes : List (Write F)) : HistoryBuffer F :=
  writes.foldl (fun b w ↦ b.record w.entity w.tick w.pos) ⟨capacity, ∅⟩

def written (entity : ℕ) (writes : List (Write F)) : List (ℕ × Vec3 F) :=
  (writes.filter (fun w ↦ decide (w.entity = entity))).map (fun w ↦ (w.tick, w.pos))

/-- The samples are those of the newest `capacity` of the written ticks, each as it was last
written, and stand in order. -/
structure Window (capacity : ℕ) (written kept : List (ℕ × Vec3 F)) : Prop where
  ascends : Ascends kept
  ticks : ∀ t, t ∈ kept.map Prod.fst ↔ t ∈ written.map Prod.fst ∧
    ((written.map Prod.fst).toFinset.filter (t < ·)).card < capacity
  last : ∀ e ∈ kept, lastWrite written e.1 = some e.2

def Spanned (kept : List (ℕ × Vec3 F)) (t : ℕ) : Prop :=
  ∃ oldest newest, kept.head? = some oldest ∧ kept.getLast? = some newest ∧
    oldest.1 ≤ t ∧ t ≤ newest.1

variable {capacity t : ℕ} {m kept : List (ℕ × Vec3 F)} {b : HistoryBuffer F}

theorem prune_eq (capacity : ℕ) (m : List (ℕ × Vec3 F)) : prune capacity m = newest capacity m := by
  induction m with
  | nil => rw [prune, newest, List.drop_nil]
  | cons e m ih =>
    rw [prune]
    split_ifs with h
    · rw [List.length_cons, Nat.lt_succ_iff] at h
      rw [ih, ← List.singleton_append, newest_append h]
    · exact (newest_of_le (Nat.not_lt.mp h)).symm

theorem entry_record (b : HistoryBuffer F) (entity tick : ℕ) (pos : Vec3 F) (other : ℕ) :
    (b.record entity tick pos).entry other = if other = entity then
      newest b.capacityTicks (Ascending.insert tick pos (b.entry entity)) else b.entry other := by
  rw [HistoryBuffer.entry, HistoryBuffer.record, lookup_insert_ite, prune_eq]
  split_ifs
  · rfl
  · rfl

theorem recorded_concat (writes : List (Write F)) (w : Write F) :
    recorded capacity (writes ++ [w]) = (recorded capacity writes).record w.entity w.tick w.pos :=
  List.foldl_concat _ _ _ _

theorem capacity_recorded (writes : List (Write F)) :
    (recorded capacity writes).capacityTicks = capacity := by
  induction writes using List.reverseRecOn with
  | nil => rfl
  | append_singleton writes w ih => rw [recorded_concat]; exact ih

theorem written_concat (entity : ℕ) (writes : List (Write F)) (w : Write F) :
    written entity (writes ++ [w]) =
      written entity writes ++ if w.entity = entity then [(w.tick, w.pos)] else [] := by
  rw [written, List.filter_append, List.map_append, List.filter_singleton]
  split_ifs with h <;> simp [written, h]

/-- The buffer refines the table of everything that was recorded, cut to its newest ticks. -/
theorem entry_recorded (capacity : ℕ) (writes : List (Write F)) (entity : ℕ) :
    (recorded capacity writes).entry entity =
      newest capacity (ofEntries (written entity writes)) := by
  induction writes using List.reverseRecOn with
  | nil => rw [newest_of_le (Nat.zero_le _)]; rfl
  | append_singleton writes w ih =>
    rw [recorded_concat, entry_record, capacity_recorded, written_concat]
    split_ifs with h h' h'
    · subst h
      rw [ih, newest_insert (ascends_ofEntries _), ofEntries_concat]
    · exact absurd h.symm h'
    · exact absurd h'.symm h
    · rw [ih, List.append_nil]

theorem window_newest (capacity : ℕ) (entries : List (ℕ × Vec3 F)) :
    Window capacity entries (newest capacity (ofEntries entries)) := by
  have hascends := ascends_ofEntries entries
  refine ⟨ascends_newest hascends capacity, fun t ↦ ?_, fun e he ↦ ?_⟩
  · rw [card_keys_filter, ← mem_keys_ofEntries entries, List.mem_map, List.mem_map]
    constructor
    · intro h
      obtain ⟨e, he, rfl⟩ := h
      obtain ⟨he, hcount⟩ := (mem_newest_iff hascends).mp he
      exact ⟨⟨e, he, rfl⟩, hcount⟩
    · intro h
      obtain ⟨⟨e, he, rfl⟩, hcount⟩ := h
      exact ⟨e, (mem_newest_iff hascends).mpr ⟨he, hcount⟩, rfl⟩
  · exact (mem_ofEntries_iff entries).mp (List.mem_of_mem_drop he)

section At

variable [Add F] [Sub F] [Mul F] [Div F] [NatCast F]

omit [Add F] [Sub F] [Mul F] [Div F] [NatCast F] in
theorem spanned_iff (h : Ascends kept) :
    Spanned kept t ↔ (∃ e ∈ kept, e.1 ≤ t) ∧ ∃ e ∈ kept, t ≤ e.1 := by
  constructor
  · intro hspan
    obtain ⟨oldest, newest, hhead, hlast, hold, hnew⟩ := hspan
    exact ⟨⟨oldest, List.mem_of_mem_head? hhead, hold⟩, newest, List.mem_of_getLast? hlast, hnew⟩
  · intro hspan
    obtain ⟨⟨d, hd, hdt⟩, e, he, het⟩ := hspan
    obtain ⟨oldest, rest, hfirst⟩ := List.exists_cons_of_ne_nil (List.ne_nil_of_mem hd)
    obtain ⟨init, newest, hlast⟩ :=
      (List.eq_nil_or_concat' kept).resolve_left (List.ne_nil_of_mem hd)
    refine ⟨oldest, newest, by rw [hfirst]; rfl, by rw [hlast, List.getLast?_concat], ?_, ?_⟩
    · rw [hfirst] at h hd
      rcases List.mem_cons.mp hd with rfl | hd
      · exact hdt
      · exact ((List.pairwise_cons.mp h).1 d hd).le.trans hdt
    · rw [hlast] at h he
      rcases List.mem_append.mp he with he | he
      · exact het.trans ((List.pairwise_append.mp h).2.2 e he newest (List.mem_singleton_self _)).le
      · rwa [← List.mem_singleton.mp he]

theorem atTick_isSome_iff (b : HistoryBuffer F) (entity t : ℕ) :
    (b.atTick entity t).isSome ↔
      (∃ e ∈ b.entry entity, e.1 ≤ t) ∧ ∃ e ∈ b.entry entity, t ≤ e.1 := by
  unfold HistoryBuffer.atTick HistoryBuffer.entry
  cases b.samples.lookup entity with
  | none => simp
  | some entry =>
    simp only [Option.bind_eq_bind, Option.bind_some, Option.getD_some]
    cases hexact : entry.find? (fun e ↦ decide (e.1 = t)) with
    | some e =>
      have he := List.mem_of_find?_eq_some hexact
      have heq : e.1 = t := by simpa using List.find?_some hexact
      exact iff_of_true rfl ⟨⟨e, he, heq.le⟩, e, he, heq.ge⟩
    | none =>
      have hne : ∀ e ∈ entry, e.1 ≠ t := by simpa using List.find?_eq_none.mp hexact
      dsimp only
      cases hbefore : (entry.filter (fun e ↦ decide (e.1 < t))).getLast? with
      | none =>
        have hnone := List.filter_eq_nil_iff.mp (List.getLast?_eq_none_iff.mp hbefore)
        refine iff_of_false Bool.false_ne_true (fun hspan ↦ ?_)
        obtain ⟨⟨e, he, het⟩, -⟩ := hspan
        exact hnone e he (decide_eq_true (lt_of_le_of_ne het (hne e he)))
      | some before =>
        obtain ⟨hb, hbt⟩ := List.mem_filter.mp (List.mem_of_getLast? hbefore)
        cases hafter : (entry.filter (fun e ↦ decide (t ≤ e.1))).head? with
        | none =>
          have hnone := List.filter_eq_nil_iff.mp (List.head?_eq_none_iff.mp hafter)
          refine iff_of_false Bool.false_ne_true (fun hspan ↦ ?_)
          obtain ⟨-, e, he, het⟩ := hspan
          exact hnone e he (decide_eq_true het)
        | some after =>
          obtain ⟨ha, hat⟩ := List.mem_filter.mp (List.mem_of_mem_head? hafter)
          refine iff_of_true ?_ ⟨⟨before, hb, (of_decide_eq_true hbt).le⟩, after, ha,
            of_decide_eq_true hat⟩
          rw [Option.bind_some, Option.bind_some]
          split <;> rfl

/-- Whatever the order of the ticks, the newest are kept, and positions are known between the oldest
and the newest of them. -/
theorem recorded_window (capacity : ℕ) (writes : List (Write F)) (entity : ℕ) :
    Window capacity (written entity writes) ((recorded capacity writes).entry entity) ∧
      ∀ t, ((recorded capacity writes).atTick entity t).isSome ↔
        Spanned ((recorded capacity writes).entry entity) t := by
  have hwindow :
      Window capacity (written entity writes) ((recorded capacity writes).entry entity) := by
    rw [entry_recorded]
    exact window_newest capacity _
  exact ⟨hwindow, fun t ↦ (atTick_isSome_iff _ entity t).trans (spanned_iff hwindow.ascends).symm⟩

end At

end Aldivine.LagCompensation.History
