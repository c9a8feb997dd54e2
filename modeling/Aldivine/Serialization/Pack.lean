import Mathlib.Data.List.Basic
import Aldivine.Core.Basics
import Aldivine.Foundation.Text
import Aldivine.Foundation.Wire

namespace Aldivine.Serialization.Value

/-- Integers are `i64` words; floats and vector components are their bit patterns. -/
inductive CfxValue
  | nil
  | bool (b : Bool)
  | int (n : BitVec 64)
  | float (bits : BitVec 64)
  | str (s : String)
  | bin (bytes : List UInt8)
  | array (items : List CfxValue)
  | map (entries : List (CfxValue × CfxValue))
  | vector2 (x y : BitVec 32)
  | vector3 (x y z : BitVec 32)
  | vector4 (x y z w : BitVec 32)
  | quat (x y z w : BitVec 32)
  | ext (tag : BitVec 8) (data : List UInt8)

namespace Ext

def vector2 : BitVec 8 := 20
def vector3 : BitVec 8 := 21
def vector4 : BitVec 8 := 22
def quaternion : BitVec 8 := 23

end Ext

namespace CfxValue

/-- Induction where containers give the hypothesis for each of their members. -/
@[elab_as_elim] theorem induct {P : CfxValue → Prop}
    (leaf : ∀ v, (∀ items, v ≠ .array items) → (∀ entries, v ≠ .map entries) → P v)
    (array : ∀ items, (∀ v ∈ items, P v) → P (.array items))
    (map : ∀ entries, (∀ e ∈ entries, P e.1 ∧ P e.2) → P (.map entries)) (v : CfxValue) : P v := by
  refine @CfxValue.rec P (fun items ↦ ∀ v ∈ items, P v)
    (fun entries ↦ ∀ e ∈ entries, P e.1 ∧ P e.2) (fun e ↦ P e.1 ∧ P e.2)
    ?_ ?_ ?_ ?_ ?_ ?_ array map ?_ ?_ ?_ ?_ ?_ (by simp) ?_ (by simp) ?_ (fun _ _ ↦ And.intro) v
  case refine_12 => exact fun v vs hv hvs ↦ List.forall_mem_cons.mpr ⟨hv, hvs⟩
  case refine_13 => exact fun e es he hes ↦ List.forall_mem_cons.mpr ⟨he, hes⟩
  all_goals
    intros
    apply leaf <;> exact fun _ h ↦ CfxValue.noConfusion h

mutual

def all (p : CfxValue → Bool) : CfxValue → Bool
  | .array items => p (.array items) && allItems p items
  | .map entries => p (.map entries) && allEntries p entries
  | v => p v

def allItems (p : CfxValue → Bool) : List CfxValue → Bool
  | [] => true
  | v :: vs => v.all p && allItems p vs

def allEntries (p : CfxValue → Bool) : List (CfxValue × CfxValue) → Bool
  | [] => true
  | (k, v) :: es => k.all p && v.all p && allEntries p es

end

variable {p : CfxValue → Bool}

theorem allItems_iff {items : List CfxValue} :
    allItems p items = true ↔ ∀ v ∈ items, v.all p = true := by
  induction items with
  | nil => simp [allItems]
  | cons v vs ih => simp [allItems, ih]

theorem allEntries_iff {entries : List (CfxValue × CfxValue)} :
    allEntries p entries = true ↔ ∀ e ∈ entries, e.1.all p = true ∧ e.2.all p = true := by
  induction entries with
  | nil => simp [allEntries]
  | cons e es ih =>
    obtain ⟨k, v⟩ := e
    simp [allEntries, ih]

theorem all_array {items : List CfxValue} :
    (CfxValue.array items).all p = true ↔
      p (.array items) = true ∧ ∀ v ∈ items, v.all p = true := by
  rw [all, Bool.and_eq_true, allItems_iff]

theorem all_map {entries : List (CfxValue × CfxValue)} :
    (CfxValue.map entries).all p = true ↔
      p (.map entries) = true ∧ ∀ e ∈ entries, e.1.all p = true ∧ e.2.all p = true := by
  rw [all, Bool.and_eq_true, allEntries_iff]

end CfxValue

end Aldivine.Serialization.Value

namespace Aldivine.Serialization.Pack

open Foundation.Text Foundation.Wire Core.Error Value

/-- The narrowest form is chosen by value; the 16- and 32-bit unsigned forms carry the whole
eight-byte word. -/
def writeInt (n : BitVec 64) : List UInt8 :=
  let i := n.toInt
  if 0 ≤ i ∧ i ≤ 127 then [UInt8.ofNat n.toNat]
  else if 0 ≤ i ∧ i ≤ 0xFF then [0xCC, UInt8.ofNat n.toNat]
  else if 0 ≤ i ∧ i ≤ 0xFFFF then 0xCD :: toBE 8 n.toNat
  else if 0 ≤ i ∧ i ≤ 0xFFFFFFFF then 0xCE :: toBE 8 n.toNat
  else if 0 ≤ i then 0xCF :: toBE 8 n.toNat
  else if -0x80 ≤ i ∧ i ≤ 0 then
    if -32 ≤ i then [UInt8.ofNat n.toNat] else [0xD0, UInt8.ofNat n.toNat]
  else if -0x8000 ≤ i ∧ i ≤ 0x7FFF then 0xD1 :: toBE 2 n.toNat
  else if -0x80000000 ≤ i ∧ i ≤ 0x7FFFFFFF then 0xD2 :: toBE 4 n.toNat
  else 0xD3 :: toBE 8 n.toNat

def writeStr (s : String) : List UInt8 :=
  let b := utf8 s
  (if b.length < 32 then [0xA0 ||| UInt8.ofNat b.length]
  else if b.length ≤ 0xFF then [0xD9, UInt8.ofNat b.length]
  else if b.length ≤ 0xFFFF then 0xDA :: toBE 2 b.length
  else 0xDB :: toBE 4 b.length) ++ b

def writeBin (b : List UInt8) : List UInt8 :=
  (if b.length ≤ 0xFF then [0xC4, UInt8.ofNat b.length]
  else if b.length ≤ 0xFFFF then 0xC5 :: toBE 2 b.length
  else 0xC6 :: toBE 4 b.length) ++ b

def arrayHeader (n : ℕ) : List UInt8 :=
  if n < 16 then [0x90 ||| UInt8.ofNat n]
  else if n ≤ 0xFFFF then 0xDC :: toBE 2 n
  else 0xDD :: toBE 4 n

def mapHeader (n : ℕ) : List UInt8 :=
  if n < 16 then [0x80 ||| UInt8.ofNat n]
  else if n ≤ 0xFFFF then 0xDE :: toBE 2 n
  else 0xDF :: toBE 4 n

def writeVector (tag : BitVec 8) (comps : List (BitVec 32)) : List UInt8 :=
  let n := comps.length * 4
  (if n ≤ 0xFF then [0xC7, UInt8.ofNat n]
  else if n ≤ 0xFFFF then 0xC8 :: toBE 2 n
  else 0xC9 :: toBE 4 n) ++
    UInt8.ofBitVec tag :: (comps.map (fun c ↦ toBE 4 c.toNat)).flatten

def extHeader (n : ℕ) : Except AldError (List UInt8) :=
  match n with
  | 1 => .ok [0xD4]
  | 2 => .ok [0xD5]
  | 4 => .ok [0xD6]
  | 8 => .ok [0xD7]
  | 16 => .ok [0xD8]
  | n =>
    if n ≤ 0xFF then .ok [0xC7, UInt8.ofNat n]
    else if n ≤ 0xFFFF then .ok (0xC8 :: toBE 2 n)
    else if n ≤ 0xFFFFFFFF then .ok (0xC9 :: toBE 4 n)
    else .error (.protocol "ext payload exceeds 4GiB")

def writeExt (tag : BitVec 8) (data : List UInt8) : Except AldError (List UInt8) := do
  return (← extHeader data.length) ++ UInt8.ofBitVec tag :: data

mutual

def writeValue : CfxValue → Except AldError (List UInt8)
  | .nil => return [0xC0]
  | .bool false => return [0xC2]
  | .bool true => return [0xC3]
  | .int n => return writeInt n
  | .float bits => return 0xCB :: toBE 8 bits.toNat
  | .str s => return writeStr s
  | .bin b => return writeBin b
  | .array items => return arrayHeader items.length ++ (← writeItems items)
  | .map entries => return mapHeader entries.length ++ (← writeEntries entries)
  | .vector2 x y => return writeVector Ext.vector2 [x, y]
  | .vector3 x y z => return writeVector Ext.vector3 [x, y, z]
  | .vector4 x y z w => return writeVector Ext.vector4 [x, y, z, w]
  | .quat x y z w => return writeVector Ext.quaternion [x, y, z, w]
  | .ext tag data => writeExt tag data

def writeItems : List CfxValue → Except AldError (List UInt8)
  | [] => return []
  | v :: vs => return (← writeValue v) ++ (← writeItems vs)

def writeEntries : List (CfxValue × CfxValue) → Except AldError (List UInt8)
  | [] => return []
  | (k, v) :: es => return ((← writeValue k) ++ (← writeValue v)) ++ (← writeEntries es)

end

def pack (v : CfxValue) : Except AldError (List UInt8) := writeValue v

end Aldivine.Serialization.Pack
