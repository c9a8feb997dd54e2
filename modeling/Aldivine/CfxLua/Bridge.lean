import Aldivine.Foundation.Ascending
import Aldivine.Serialization.Unpack
import Mathlib.Data.String.Basic

namespace Aldivine.CfxLua.Bridge

open Foundation.Ascending Foundation.Text Foundation.Wire
open Serialization.Unpack (widen)

section Values

/-- `serde_json::Number`: an integer of `i64` or `u64`, or the bit pattern of a float. -/
inductive Number
  | int (n : ℤ)
  | float (bits : BitVec 64)
deriving DecidableEq

/-- `serde_json::Value`, whose maps ascend by key. -/
inductive Json
  | null
  | bool (b : Bool)
  | number (n : Number)
  | string (s : String)
  | array (items : List Json)
  | object (entries : List (String × Json))

namespace Json

/-- Induction where containers give the hypothesis for each of their members. -/
@[elab_as_elim] theorem induct {P : Json → Prop}
    (leaf : ∀ j, (∀ items, j ≠ .array items) → (∀ entries, j ≠ .object entries) → P j)
    (array : ∀ items, (∀ x ∈ items, P x) → P (.array items))
    (object : ∀ entries, (∀ e ∈ entries, P e.2) → P (.object entries)) (j : Json) : P j := by
  refine @Json.rec P (fun items ↦ ∀ x ∈ items, P x) (fun entries ↦ ∀ e ∈ entries, P e.2)
    (fun e ↦ P e.2) ?_ ?_ ?_ ?_ array object (by simp) ?_ (by simp) ?_ (fun _ _ hx ↦ hx) j
  case refine_5 => exact fun x items hx hitems ↦ List.forall_mem_cons.mpr ⟨hx, hitems⟩
  case refine_6 => exact fun e entries he hentries ↦ List.forall_mem_cons.mpr ⟨he, hentries⟩
  all_goals
    intros
    apply leaf <;> exact fun _ h ↦ Json.noConfusion h

mutual

/-- The value and all values inside it; the keys count as strings. -/
def parts : Json → List Json
  | .array items => .array items :: partsItems items
  | .object entries => .object entries :: partsEntries entries
  | j => [j]

def partsItems : List Json → List Json
  | [] => []
  | x :: items => x.parts ++ partsItems items

def partsEntries : List (String × Json) → List Json
  | [] => []
  | (k, x) :: entries => .string k :: x.parts ++ partsEntries entries

end

theorem mem_partsItems {items : List Json} {y : Json} :
    y ∈ partsItems items ↔ ∃ x ∈ items, y ∈ x.parts := by
  induction items with
  | nil => simp [partsItems]
  | cons x items ih => rw [partsItems, List.mem_append, ih, List.exists_mem_cons_iff]

theorem mem_partsEntries {entries : List (String × Json)} {y : Json} :
    y ∈ partsEntries entries ↔ ∃ e ∈ entries, y = .string e.1 ∨ y ∈ e.2.parts := by
  induction entries with
  | nil => simp [partsEntries]
  | cons e entries ih =>
    rw [partsEntries, List.mem_append, List.mem_cons, ih, List.exists_mem_cons_iff]

theorem mem_parts_self (j : Json) : j ∈ j.parts := by
  cases j <;> simp [parts]

theorem parts_string (s : String) : (Json.string s).parts = [.string s] := by
  simp [parts]

theorem parts_trans {x y z : Json} (hxy : x ∈ y.parts) (hyz : y ∈ z.parts) : x ∈ z.parts := by
  induction z using Json.induct with
  | leaf z harray hobject =>
    have hy : y = z := by
      cases z with
      | array items => exact absurd rfl (harray items)
      | object entries => exact absurd rfl (hobject entries)
      | _ => exact List.mem_singleton.mp hyz
    rwa [← hy]
  | array items ih =>
    rw [parts, List.mem_cons, mem_partsItems] at hyz
    rcases hyz with rfl | ⟨z, hz, hyz⟩
    · exact hxy
    · rw [parts, List.mem_cons, mem_partsItems]
      exact .inr ⟨z, hz, ih z hz hyz⟩
  | object entries ih =>
    rw [parts, List.mem_cons, mem_partsEntries] at hyz
    rcases hyz with rfl | ⟨e, he, rfl | hyz⟩
    · exact hxy
    · rw [parts_string, List.mem_singleton] at hxy
      rw [parts, List.mem_cons, mem_partsEntries]
      exact .inr ⟨e, he, .inl hxy⟩
    · rw [parts, List.mem_cons, mem_partsEntries]
      exact .inr ⟨e, he, .inr (ih e he hyz)⟩

end Json

end Values

section Writing

def Number.asI64 : Number → Option ℤ
  | .int n => if n < 2 ^ 63 then some n else none
  | .float _ => none

/-- `u64 as f64` from 2^63 on: eleven bits are rounded away, to even on a tie. -/
def u64AsF64 (n : ℕ) : BitVec 64 :=
  let q := n / 2 ^ 11
  let r := n % 2 ^ 11
  let mantissa := if 2 ^ 10 < r ∨ r = 2 ^ 10 ∧ q % 2 = 1 then q + 1 else q
  .ofNat 64 (1086 * 2 ^ 52 + (mantissa - 2 ^ 52))

def Number.asF64 : Number → BitVec 64
  | .int n => u64AsF64 n.toNat
  | .float bits => bits

def lowByte (i : ℤ) : UInt8 := UInt8.ofNat (i % 256).toNat

def writeInt (i : ℤ) : List UInt8 :=
  if 0 ≤ i ∧ i ≤ 127 then [lowByte i]
  else if -32 ≤ i ∧ i ≤ -1 then [lowByte i]
  else if 0 ≤ i ∧ i ≤ 0xff then [0xcc, lowByte i]
  else if 0 ≤ i then [0xcd, lowByte (i / 2 ^ 8), lowByte i]
  else [0xd0, lowByte i]

def writeNumber (n : Number) : List UInt8 :=
  match n.asI64 with
  | some i => writeInt i
  | none => 0xcb :: toBE 8 n.asF64.toNat

def writeString (s : String) : List UInt8 :=
  let b := utf8 s
  (if b.length ≤ 31 then [0xa0 ||| UInt8.ofNat b.length]
  else if b.length ≤ 0xff then [0xd9, UInt8.ofNat b.length]
  else 0xda :: toBE 2 b.length) ++ b

def arrayHeader (n : ℕ) : List UInt8 :=
  if n ≤ 15 then [0x90 ||| UInt8.ofNat n] else 0xdc :: toBE 2 n

def objectHeader (n : ℕ) : List UInt8 :=
  if n ≤ 15 then [0x80 ||| UInt8.ofNat n] else 0xde :: toBE 2 n

mutual

/-- The bytes that `write` appends; it has no error of its own. -/
def write : Json → List UInt8
  | .null => [0xc0]
  | .bool b => [if b then 0xc3 else 0xc2]
  | .number n => writeNumber n
  | .string s => writeString s
  | .array items => arrayHeader items.length ++ writeItems items
  | .object entries => objectHeader entries.length ++ writeEntries entries

def writeItems : List Json → List UInt8
  | [] => []
  | x :: items => write x ++ writeItems items

def writeEntries : List (String × Json) → List UInt8
  | [] => []
  | (k, x) :: entries => writeString k ++ write x ++ writeEntries entries

end

def jsonToMsgpack (j : Json) : Except String (List UInt8) := .ok (write j)

end Writing

section Reading

def finite (bits : BitVec 64) : Bool := bits.toNat / 2 ^ 52 % 2 ^ 11 ≠ 2047

/-- `json!(f)` of a float. -/
def ofF64 (bits : BitVec 64) : Json := if finite bits then .number (.float bits) else .null

structure Texts where
  utf8Error : List UInt8 → String
  float : BitVec 64 → String

variable (texts : Texts)

def Number.text : Number → String
  | .int n => toString n
  | .float bits => texts.float bits

def word (k : ℕ) : Reader String ℕ := readBE "truncated" k

def signed (w n : ℕ) : ℤ := (BitVec.ofNat w n).toInt

def readStr (len : ℕ) : Reader String Json := do
  let bytes ← takeBytes "truncated msgpack string" len
  match ofUtf8 bytes with
  | some s => return .string s
  | none => throw (texts.utf8Error bytes)

variable (read : Reader String Json)

def readArr (len : ℕ) : Reader String Json := do
  return .array (← repeatRead read len)

def readEntry : Reader String (String × Json) := do
  let k ← read
  let v ← read
  match k with
  | .string s => return (s, v)
  | .number n => return (n.text texts, v)
  | _ => throw "msgpack map key must be string or number"

def readEntries : ℕ → List (String × Json) → Reader String (List (String × Json))
  | 0, map => return map
  | len + 1, map => do
    let (key, v) ← readEntry texts read
    readEntries len (Foundation.Ascending.insert key v map)

def readMap (len : ℕ) : Reader String Json := do
  return .object (← readEntries texts read len [])

/-- The reader of 8-bit words does not move behind the byte. -/
def readTagged (tag : UInt8) : Reader String Json :=
  match tag with
  | 0xc0 => return .null
  | 0xc2 => return .bool false
  | 0xc3 => return .bool true
  | 0xca => return ofF64 (widen (.ofNat 32 (← word 4)))
  | 0xcb => return ofF64 (.ofNat 64 (← word 8))
  | 0xcc => return .number (.int (← peekByte "truncated").toNat)
  | 0xcd => return .number (.int (← word 2))
  | 0xce => return .number (.int (← word 4))
  | 0xcf => return .number (.int (← word 8))
  | 0xd0 => return .number (.int (signed 8 (← word 1)))
  | 0xd1 => return .number (.int (signed 16 (← word 2)))
  | 0xd2 => return .number (.int (signed 32 (← word 4)))
  | 0xd3 => return .number (.int (signed 64 (← word 8)))
  | 0xd9 => do readStr texts (← word 1)
  | 0xda => do readStr texts (← word 2)
  | 0xdb => do readStr texts (← word 4)
  | 0xdc => do readArr read (← word 2)
  | 0xdd => do readArr read (← word 4)
  | 0xde => do readMap texts read (← word 2)
  | 0xdf => do readMap texts read (← word 4)
  | t =>
    if t ≤ 0x7f then return .number (.int t.toNat)
    else if 0xe0 ≤ t then return .number (.int (signed 8 t.toNat))
    else if 0xa0 ≤ t ∧ t ≤ 0xbf then readStr texts (t &&& 0x1f).toNat
    else if 0x90 ≤ t ∧ t ≤ 0x9f then readArr read (t &&& 0x0f).toNat
    else if 0x80 ≤ t ∧ t ≤ 0x8f then readMap texts read (t &&& 0x0f).toNat
    else throw ("unsupported msgpack type byte 0x" ++
      String.ofList [Nat.digitChar (t.toNat / 16), Nat.digitChar (t.toNat % 16)])

def readValue : Reader String Json := nested "truncated msgpack" (readTagged texts)

def msgpackToJson (b : List UInt8) : Except String Json := do
  return (← (readValue texts).run b).1

end Reading

section Agreement

variable {texts : Texts} {n : ℕ} {read read' : Reader String Json}

theorem agree_word (k : ℕ) : Agree n (word k) (word k) := agree_readBE _ k

theorem agree_readStr (len : ℕ) : Agree n (readStr texts len) (readStr texts len) := by
  refine (agree_takeBytes _ len).bind (fun bytes ↦ ?_)
  cases ofUtf8 bytes with
  | none => exact agree_throw _
  | some s => exact agree_pure _

theorem agree_readArr (h : Agree n read read') (len : ℕ) :
    Agree n (readArr read len) (readArr read' len) := (h.repeat len).map Json.array

theorem agree_readEntry (h : Agree n read read') :
    Agree n (readEntry texts read) (readEntry texts read') := by
  refine h.bind (fun k ↦ h.bind (fun v ↦ ?_))
  cases k with
  | string s => exact agree_pure _
  | number x => exact agree_pure _
  | _ => exact agree_throw _

theorem agree_readMap (h : Agree n read read') (len : ℕ) :
    Agree n (readMap texts read len) (readMap texts read' len) := by
  have hentries (map : List (String × Json)) :
      Agree n (readEntries texts read len map) (readEntries texts read' len map) := by
    induction len generalizing map with
    | zero => exact agree_pure _
    | succ len ih => exact (agree_readEntry h).bind (fun e ↦ ih _)
  exact (hentries []).map Json.object

theorem agree_readTagged (h : Agree n read read') (tag : UInt8) :
    Agree n (readTagged texts read tag) (readTagged texts read' tag) := by
  have hword {k : ℕ} {f f' : ℕ → Reader String Json} (hf : ∀ x, Agree n (f x) (f' x)) :
      Agree n (word k >>= f) (word k >>= f') := (agree_word k).bind hf
  unfold readTagged
  split
  all_goals first
    | exact agree_pure _
    | exact hword (fun _ ↦ agree_pure _)
    | exact (agree_peekByte _).bind (fun _ ↦ agree_pure _)
    | exact hword (fun x ↦ agree_readStr x)
    | exact hword (fun x ↦ agree_readArr h x)
    | exact hword (fun x ↦ agree_readMap h x)
    | skip
  split_ifs
  · exact agree_pure _
  · exact agree_pure _
  · exact agree_readStr _
  · exact agree_readArr h _
  · exact agree_readMap h _
  · exact agree_throw _

/-- The equation of the source: a tag, then what belongs to it. -/
theorem readValue_cons (tag : UInt8) (c : List UInt8) :
    (readValue texts).run (tag :: c) = (readTagged texts (readValue texts) tag).run c :=
  nested_cons (fun _ _ _ tag h ↦ agree_readTagged h tag) tag c

end Agreement

end Aldivine.CfxLua.Bridge
