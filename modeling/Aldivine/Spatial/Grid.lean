import Aldivine.Foundation.Execution
import Aldivine.Foundation.Table
import Mathlib.Data.List.ProdSigma
import Mathlib.Data.Rat.Floor
import Mathlib.Tactic.Linarith

namespace Aldivine.Spatial.Grid

open Foundation.Execution Foundation.Table

abbrev Entity := BitVec 64

structure Vec3 where
  x : ℚ
  y : ℚ
  z : ℚ
deriving DecidableEq

abbrev CellKey := ℤ × ℤ

def cell : ℚ := 64

/-- `as i32`, which saturates. -/
def asI32 (i : ℤ) : ℤ := max (-2 ^ 31) (min (2 ^ 31 - 1) i)

def cellOf (pos : Vec3) : CellKey := (asI32 ⌊pos.x / cell⌋, asI32 ⌊pos.y / cell⌋)

def Vec3.squaredDistance (a b : Vec3) : ℚ :=
  let dx := a.x - b.x
  let dy := a.y - b.y
  dx * dx + dy * dy

/-- `horizontal_distance(center) <= radius`, without the square root. -/
def Vec3.within (pos center : Vec3) (radius : ℚ) : Bool :=
  decide (0 ≤ radius) && decide (pos.squaredDistance center ≤ radius * radius)

abbrev Cells := AList (fun _ : CellKey ↦ List Entity)

structure SpatialGrid where
  cells : Cells
  positions : AList (fun _ : Entity ↦ Vec3)

def Cells.listed (cells : Cells) (key : CellKey) : List Entity := (cells.lookup key).getD []

/-- The entity is taken out of a cell, and the cell goes when nothing is left in it. -/
def Cells.leave (cells : Cells) (key : CellKey) (entity : Entity) : Cells :=
  match cells.lookup key with
  | none => cells
  | some old =>
    let kept := old.filter (fun e ↦ decide (e ≠ entity))
    if kept.isEmpty then cells.erase key else cells.insert key kept

/-- `entry(key).or_default().push(entity)`. -/
def Cells.enter (cells : Cells) (key : CellKey) (entity : Entity) : Cells :=
  cells.insert key (cells.listed key ++ [entity])

namespace SpatialGrid

def new : SpatialGrid := ⟨∅, ∅⟩

def upsert (grid : SpatialGrid) (entity : Entity) (pos : Vec3) : SpatialGrid :=
  let key := cellOf pos
  match grid.positions.lookup entity with
  | none => ⟨grid.cells.enter key entity, grid.positions.insert entity pos⟩
  | some old =>
    let oldKey := cellOf old
    if oldKey = key then ⟨grid.cells, grid.positions.insert entity pos⟩
    else
      ⟨(grid.cells.leave oldKey entity).enter key entity, grid.positions.insert entity pos⟩

def remove (grid : SpatialGrid) (entity : Entity) : SpatialGrid :=
  match grid.positions.lookup entity with
  | none => grid
  | some pos => ⟨grid.cells.leave (cellOf pos) entity, grid.positions.erase entity⟩

def inclusive (lo hi : ℤ) : List ℤ := (List.range (hi + 1 - lo).toNat).map (fun (i : ℕ) ↦ lo + (i : ℤ))

def scan (grid : SpatialGrid) (center : Vec3) (radius : ℚ) (key : CellKey) : List Entity :=
  (grid.cells.listed key).filter fun e ↦
    match grid.positions.lookup e with
    | none => false
    | some pos => pos.within center radius

def queryRadius (grid : SpatialGrid) (center : Vec3) (radius : ℚ) : List Entity :=
  let min := cellOf ⟨center.x - radius, center.y - radius, center.z⟩
  let max := cellOf ⟨center.x + radius, center.y + radius, center.z⟩
  (inclusive min.1 max.1).flatMap fun cx ↦
    (inclusive min.2 max.2).flatMap fun cy ↦ grid.scan center radius (cx, cy)

end SpatialGrid

inductive Call
  | upsert (entity : Entity) (pos : Vec3)
  | remove (entity : Entity)
deriving DecidableEq

def step (grid : SpatialGrid) : Call → SpatialGrid × Unit
  | .upsert entity pos => (grid.upsert entity pos, ())
  | .remove entity => (grid.remove entity, ())

def placed (entity : Entity) : Call → Option (Option Vec3)
  | .upsert e pos => if e = entity then some (some pos) else none
  | .remove e => if e = entity then some none else none

/-- Where the calls have left an entity: nowhere when it was never placed, or removed since. -/
def lastPosition (calls : List Call) (entity : Entity) : Option Vec3 :=
  (latest (placed entity) calls).join

/-- Every entity that has a position is listed once, in the cell of its position, and nowhere else;
no list is empty. -/
structure Indexed (grid : SpatialGrid) (position : Entity → Option Vec3) : Prop where
  listed : ∀ key e,
    (grid.cells.listed key).count e = if (position e).map cellOf = some key then 1 else 0
  nonempty : ∀ key, grid.cells.lookup key ≠ some []

structure Finds (grid : SpatialGrid) (position : Entity → Option Vec3) (center : Vec3)
    (radius : ℚ) : Prop where
  nodup : (grid.queryRadius center radius).Nodup
  mem_iff : ∀ e, e ∈ grid.queryRadius center radius ↔
    ∃ pos, position e = some pos ∧ pos.squaredDistance center ≤ radius ^ 2

section Cells

variable {cells : Cells} {key : CellKey} {entity : Entity}

theorem listed_insert (cells : Cells) (key : CellKey) (l : List Entity) (k : CellKey) :
    Cells.listed (cells.insert key l) k = if k = key then l else cells.listed k := by
  rw [Cells.listed, lookup_insert_ite]
  split <;> rfl

theorem listed_erase (cells : Cells) (key k : CellKey) :
    Cells.listed (cells.erase key) k = if k = key then [] else cells.listed k := by
  rw [Cells.listed]
  split
  · rename_i hk
    rw [hk, AList.lookup_erase]
    rfl
  · rename_i hk
    rw [AList.lookup_erase_ne hk]
    rfl

theorem listed_leave (cells : Cells) (key : CellKey) (entity : Entity) (k : CellKey) :
    (cells.leave key entity).listed k =
      if k = key then (cells.listed key).filter (fun e ↦ decide (e ≠ entity))
      else cells.listed k := by
  unfold Cells.leave
  cases hold : cells.lookup key with
  | none =>
    dsimp only
    split
    · rename_i hk
      rw [hk, Cells.listed, hold]
      rfl
    · rfl
  | some old =>
    have hlisted : cells.listed key = old := by
      rw [Cells.listed, hold]
      rfl
    dsimp only
    split
    · rename_i hempty
      rw [listed_erase, hlisted, List.isEmpty_iff.mp hempty]
    · rw [listed_insert, hlisted]

theorem listed_enter (cells : Cells) (key : CellKey) (entity : Entity) (k : CellKey) :
    (cells.enter key entity).listed k =
      if k = key then cells.listed key ++ [entity] else cells.listed k :=
  listed_insert _ _ _ _

theorem leave_nonempty (h : ∀ k, cells.lookup k ≠ some []) (k : CellKey) :
    (cells.leave key entity).lookup k ≠ some [] := by
  unfold Cells.leave
  cases cells.lookup key with
  | none => exact h k
  | some old =>
    dsimp only
    split
    · by_cases hk : k = key
      · rw [hk, AList.lookup_erase]
        exact Option.some_ne_none _ |>.symm
      · rw [AList.lookup_erase_ne hk]
        exact h k
    · rename_i hkept
      rw [lookup_insert_ite]
      split
      · intro heq
        rw [Option.some.injEq] at heq
        rw [heq] at hkept
        exact hkept rfl
      · exact h k

theorem enter_nonempty (h : ∀ k, cells.lookup k ≠ some []) (k : CellKey) :
    (cells.enter key entity).lookup k ≠ some [] := by
  rw [Cells.enter, lookup_insert_ite]
  split
  · intro heq
    exact List.concat_ne_nil _ _ (Option.some.inj heq)
  · exact h k

end Cells

section Index

variable {grid : SpatialGrid} {position : Entity → Option Vec3} {entity : Entity} {pos : Vec3}

theorem count_drop (l : List Entity) (entity e : Entity) :
    (l.filter (fun other ↦ decide (other ≠ entity))).count e =
      if e = entity then 0 else l.count e := by
  split
  · rename_i he
    subst he
    rw [List.count_eq_zero, List.mem_filter]
    simp
  · rename_i he
    exact List.count_filter (by simpa using he)

theorem indexed_leave (h : Indexed grid position) (hpos : position entity = some pos) :
    Indexed ⟨grid.cells.leave (cellOf pos) entity, grid.positions⟩
      (Function.update position entity none) := by
  refine ⟨fun key e ↦ ?_, fun key ↦ leave_nonempty h.nonempty key⟩
  rw [listed_leave]
  by_cases he : e = entity
  · subst he
    rw [Function.update_self, Option.map_none, if_neg (Option.some_ne_none key).symm]
    split
    · rw [count_drop, if_pos rfl]
    · rename_i hkey
      rw [h.listed, hpos]
      exact if_neg (fun heq ↦ hkey (Option.some.inj heq).symm)
  · rw [Function.update_of_ne he]
    split
    · rename_i hkey
      rw [count_drop, if_neg he, h.listed, hkey]
    · exact h.listed key e

theorem indexed_enter (h : Indexed grid position) (hnone : position entity = none) :
    Indexed ⟨grid.cells.enter (cellOf pos) entity, grid.positions⟩
      (Function.update position entity (some pos)) := by
  refine ⟨fun key e ↦ ?_, fun key ↦ enter_nonempty h.nonempty key⟩
  rw [listed_enter]
  by_cases he : e = entity
  · subst he
    have hold (k : CellKey) : (grid.cells.listed k).count e = 0 := by
      rw [h.listed, hnone, Option.map_none, if_neg (Option.some_ne_none k).symm]
    rw [Function.update_self]
    split
    · rename_i hkey
      rw [List.count_append, hold, List.count_singleton_self]
      exact (if_pos (congrArg some hkey.symm)).symm
    · rename_i hkey
      rw [hold]
      exact (if_neg (fun heq ↦ hkey (Option.some.inj heq).symm)).symm
  · rw [Function.update_of_ne he]
    split
    · rename_i hkey
      rw [List.count_append, List.count_singleton, if_neg (by simpa using Ne.symm he), Nat.add_zero,
        h.listed, hkey]
    · exact h.listed key e

theorem indexed_within {old : Vec3} (h : Indexed grid position) (hold : position entity = some old)
    (hcell : cellOf old = cellOf pos) :
    Indexed grid (Function.update position entity (some pos)) := by
  refine ⟨fun key e ↦ ?_, h.nonempty⟩
  rw [h.listed]
  by_cases he : e = entity
  · rw [he, Function.update_self, hold, Option.map_some, Option.map_some, hcell]
  · rw [Function.update_of_ne he]

theorem Indexed.congr {other : SpatialGrid} (h : Indexed grid position)
    (hcells : other.cells = grid.cells) : Indexed other position :=
  ⟨fun key e ↦ by rw [hcells]; exact h.listed key e, fun key ↦ by rw [hcells]; exact h.nonempty key⟩

theorem indexed_upsert (h : Indexed grid grid.positions.lookup) (entity : Entity) (pos : Vec3) :
    Indexed (grid.upsert entity pos)
        (Function.update grid.positions.lookup entity (some pos)) ∧
      (grid.upsert entity pos).positions = grid.positions.insert entity pos := by
  unfold SpatialGrid.upsert
  cases hold : grid.positions.lookup entity with
  | none => exact ⟨(indexed_enter h hold).congr rfl, rfl⟩
  | some old =>
    dsimp only
    split
    · rename_i hcell
      exact ⟨(indexed_within h hold hcell).congr rfl, rfl⟩
    · have hleft := indexed_leave h hold
      have hentered := @indexed_enter _ _ entity pos hleft (Function.update_self _ _ _)
      rw [Function.update_idem] at hentered
      exact ⟨hentered.congr rfl, rfl⟩

theorem indexed_remove (h : Indexed grid grid.positions.lookup) (entity : Entity) :
    Indexed (grid.remove entity) (Function.update grid.positions.lookup entity none) ∧
      ∀ e, (grid.remove entity).positions.lookup e =
        Function.update grid.positions.lookup entity none e := by
  unfold SpatialGrid.remove
  cases hold : grid.positions.lookup entity with
  | none =>
    have hsame : Function.update grid.positions.lookup entity none = grid.positions.lookup := by
      rw [← hold]
      exact Function.update_eq_self _ _
    rw [hsame]
    exact ⟨h, fun _ ↦ rfl⟩
  | some pos =>
    refine ⟨(indexed_leave h hold).congr rfl, fun e ↦ ?_⟩
    by_cases he : e = entity
    · rw [he, Function.update_self]
      exact AList.lookup_erase _ _
    · rw [Function.update_of_ne he]
      exact AList.lookup_erase_ne he

theorem lastPosition_concat (calls : List Call) (call : Call) :
    lastPosition (calls ++ [call]) = match call with
      | .upsert entity pos => Function.update (lastPosition calls) entity (some pos)
      | .remove entity => Function.update (lastPosition calls) entity none := by
  funext e
  rw [lastPosition, latest_concat]
  cases call with
  | upsert entity pos =>
    by_cases he : entity = e
    · subst he
      simp [placed]
    · simp [placed, he, Function.update_of_ne (Ne.symm he), lastPosition]
  | remove entity =>
    by_cases he : entity = e
    · subst he
      simp [placed]
    · simp [placed, he, Function.update_of_ne (Ne.symm he), lastPosition]

theorem indexed_run (calls : List Call) :
    (run step SpatialGrid.new calls).positions.lookup = lastPosition calls ∧
      Indexed (run step SpatialGrid.new calls) (lastPosition calls) := by
  induction calls using List.reverseRecOn with
  | nil =>
    refine ⟨rfl, fun key e ↦ ?_, fun key heq ↦ ?_⟩
    · exact (if_neg (Option.some_ne_none key).symm).symm
    · cases heq
  | append_singleton calls call ih =>
    obtain ⟨hpositions, hindexed⟩ := ih
    rw [run_concat, lastPosition_concat, ← hpositions]
    rw [← hpositions] at hindexed
    cases call with
    | upsert entity pos =>
      obtain ⟨hnext, hinsert⟩ := indexed_upsert hindexed entity pos
      refine ⟨?_, hnext⟩
      funext e
      change ((run step SpatialGrid.new calls).upsert entity pos).positions.lookup e =
        Function.update (run step SpatialGrid.new calls).positions.lookup entity (some pos) e
      rw [hinsert, lookup_insert_ite, Function.update_apply]
    | remove entity =>
      obtain ⟨hnext, herase⟩ := indexed_remove hindexed entity
      exact ⟨funext herase, hnext⟩

end Index

section Queries

variable {grid : SpatialGrid} {center pos : Vec3} {radius : ℚ} {e : Entity}

def rectangle (center : Vec3) (radius : ℚ) : List CellKey :=
  let min := cellOf ⟨center.x - radius, center.y - radius, center.z⟩
  let max := cellOf ⟨center.x + radius, center.y + radius, center.z⟩
  SpatialGrid.inclusive min.1 max.1 ×ˢ SpatialGrid.inclusive min.2 max.2

theorem mem_inclusive {lo hi i : ℤ} :
    i ∈ SpatialGrid.inclusive lo hi ↔ lo ≤ i ∧ i ≤ hi := by
  simp only [SpatialGrid.inclusive, List.mem_map, List.mem_range]
  constructor
  · intro h
    obtain ⟨n, hn, rfl⟩ := h
    omega
  · intro h
    exact ⟨(i - lo).toNat, by omega, by omega⟩

theorem nodup_inclusive (lo hi : ℤ) : (SpatialGrid.inclusive lo hi).Nodup := by
  refine List.Nodup.map ?_ List.nodup_range
  intro i j hij
  exact Nat.cast_injective (add_left_cancel hij)

theorem asI32_mono {i j : ℤ} (h : i ≤ j) : asI32 i ≤ asI32 j :=
  max_le_max_left _ (min_le_min_left _ h)

theorem cell_pos : 0 < cell := by decide +kernel

theorem axis_mono {a b : ℚ} (h : a ≤ b) : asI32 ⌊a / cell⌋ ≤ asI32 ⌊b / cell⌋ :=
  asI32_mono (Int.floor_le_floor (div_le_div_of_nonneg_right h cell_pos.le))

theorem axis_within {a c dy : ℚ} (hradius : 0 ≤ radius)
    (h : (a - c) * (a - c) + dy * dy ≤ radius ^ 2) : c - radius ≤ a ∧ a ≤ c + radius := by
  have hsquare : (a - c) ^ 2 ≤ radius ^ 2 := by nlinarith [mul_self_nonneg dy]
  obtain ⟨hlow, hhigh⟩ := abs_le_of_sq_le_sq' hsquare hradius
  exact ⟨by linarith, by linarith⟩

/-- The cell of every position within the radius is in the rectangle that is scanned. -/
theorem cellOf_scanned (hradius : 0 ≤ radius) (h : pos.squaredDistance center ≤ radius ^ 2) :
    cellOf pos ∈ rectangle center radius := by
  obtain ⟨hxlow, hxhigh⟩ := axis_within hradius h
  have hcomm : (pos.y - center.y) * (pos.y - center.y) +
      (pos.x - center.x) * (pos.x - center.x) ≤ radius ^ 2 := by
    rw [add_comm]
    exact h
  obtain ⟨hylow, hyhigh⟩ := axis_within hradius hcomm
  rw [rectangle, List.mem_product, mem_inclusive, mem_inclusive]
  exact ⟨⟨axis_mono hxlow, axis_mono hxhigh⟩, ⟨axis_mono hylow, axis_mono hyhigh⟩⟩

theorem within_iff (hradius : 0 ≤ radius) :
    pos.within center radius = true ↔ pos.squaredDistance center ≤ radius ^ 2 := by
  rw [Vec3.within, Bool.and_eq_true, decide_eq_true_iff, decide_eq_true_iff, pow_two]
  exact and_iff_right hradius

theorem mem_scan (h : Indexed grid grid.positions.lookup) {key : CellKey} :
    e ∈ grid.scan center radius key ↔ ∃ pos, grid.positions.lookup e = some pos ∧
      cellOf pos = key ∧ pos.within center radius = true := by
  have hlisted := h.listed key e
  rw [SpatialGrid.scan, List.mem_filter, ← List.one_le_count_iff, hlisted]
  cases hpos : grid.positions.lookup e with
  | none => simp
  | some pos => by_cases hkey : cellOf pos = key <;> simp [hkey]

theorem queryRadius_eq (grid : SpatialGrid) (center : Vec3) (radius : ℚ) :
    grid.queryRadius center radius =
      (rectangle center radius).flatMap (grid.scan center radius) := by
  change _ = List.flatMap _ (List.product _ _)
  rw [SpatialGrid.queryRadius, List.product, List.flatMap_assoc]
  refine List.flatMap_congr (fun cx _ ↦ ?_)
  rw [List.flatMap_map]

theorem finds (h : Indexed grid grid.positions.lookup) (hradius : 0 ≤ radius) :
    Finds grid grid.positions.lookup center radius := by
  refine ⟨?_, fun e ↦ ?_⟩
  · rw [queryRadius_eq, List.nodup_flatMap]
    refine ⟨fun key _ ↦ ?_, ?_⟩
    · refine List.Nodup.filter _ (List.nodup_iff_count_le_one.mpr (fun e ↦ ?_))
      rw [h.listed]
      split <;> decide
    · refine ((nodup_inclusive _ _).product (nodup_inclusive _ _)).imp ?_
      intro key other hne e he hother
      obtain ⟨pos, hpos, rfl, -⟩ := (mem_scan h).mp he
      obtain ⟨pos', hpos', rfl, -⟩ := (mem_scan h).mp hother
      rw [hpos, Option.some.injEq] at hpos'
      rw [hpos'] at hne
      exact hne rfl
  · rw [queryRadius_eq, List.mem_flatMap]
    constructor
    · intro hmem
      obtain ⟨key, -, hscan⟩ := hmem
      obtain ⟨pos, hpos, -, hwithin⟩ := (mem_scan h).mp hscan
      exact ⟨pos, hpos, (within_iff hradius).mp hwithin⟩
    · intro hnear
      obtain ⟨pos, hpos, hwithin⟩ := hnear
      exact ⟨cellOf pos, cellOf_scanned hradius hwithin,
        (mem_scan h).mpr ⟨pos, hpos, rfl, (within_iff hradius).mpr hwithin⟩⟩

/-- After every run of moves and removals the grid lists each entity in the cell of its last
position, and a query finds those within the radius. -/
theorem grid_follows_positions (calls : List Call) (center : Vec3) (radius : ℚ)
    (hradius : 0 ≤ radius) :
    Indexed (run step SpatialGrid.new calls) (lastPosition calls) ∧
      Finds (run step SpatialGrid.new calls) (lastPosition calls) center radius := by
  obtain ⟨hpositions, hindexed⟩ := indexed_run calls
  rw [← hpositions] at hindexed ⊢
  exact ⟨hindexed, finds hindexed hradius⟩

/-- One entity across the origin and back, another on a cell's edge, a third removed. -/
def wander : List Call :=
  [.upsert 1 ⟨-1, -1, 0⟩, .upsert 2 ⟨64, 0, 5⟩, .upsert 1 ⟨1, 1, 0⟩, .upsert 3 ⟨2, 2, 0⟩,
    .upsert 1 ⟨-70, -70, 0⟩, .remove 3]

theorem wander_follows :
    (Indexed (run step SpatialGrid.new wander) (lastPosition wander) ∧
      Finds (run step SpatialGrid.new wander) (lastPosition wander) ⟨0, 0, 0⟩ 100) ∧
      (run step SpatialGrid.new wander).queryRadius ⟨0, 0, 0⟩ 100 = [1, 2] :=
  ⟨grid_follows_positions wander ⟨0, 0, 0⟩ 100 (by decide +kernel), by decide +kernel⟩

end Queries

end Aldivine.Spatial.Grid
