import Aldivine.Core.Basics
import Aldivine.Foundation.Text
import Aldivine.Foundation.Wire
import Aldivine.Serialization.Pack

namespace Aldivine.Serialization.Unpack

open Foundation.Text Foundation.Wire Core.Error Value

abbrev Cursor := Reader AldError

def readU8 : Cursor UInt8 := readByte (.protocol "unexpected end of msgpack buffer")

def take (n : ℕ) : Cursor (List UInt8) := takeBytes (.protocol "msgpack field overruns buffer") n

def readWord (w k : ℕ) : Cursor (BitVec w) := do
  return BitVec.ofNat w (ofBE (← take k))

def readU16 : Cursor (BitVec 16) := readWord 16 2

def readU32 : Cursor (BitVec 32) := readWord 32 4

def readF32 : Cursor (BitVec 32) := readWord 32 4

def readF64 : Cursor (BitVec 64) := readWord 64 8

/-- `f32 as f64` on bit patterns: the value is kept, and a NaN comes out quiet. -/
def widen (bits : BitVec 32) : BitVec 64 :=
  let sign := bits.toNat / 2 ^ 31
  let exponent := bits.toNat / 2 ^ 23 % 2 ^ 8
  let mantissa := bits.toNat % 2 ^ 23
  let pattern (exponent mantissa : ℕ) :=
    BitVec.ofNat 64 (sign * 2 ^ 63 + exponent * 2 ^ 52 + mantissa)
  if exponent = 255 then
    pattern 2047 (if mantissa = 0 then 0 else mantissa % 2 ^ 22 * 2 ^ 29 + 2 ^ 51)
  else if exponent = 0 then
    if mantissa = 0 then pattern 0 0
    else
      let k := mantissa.log2
      pattern (k + 874) ((mantissa - 2 ^ k) * 2 ^ (52 - k))
  else pattern (exponent + 896) (mantissa * 2 ^ 29)

def readBin (n : ℕ) : Cursor CfxValue := do
  return .bin (← take n)

def readStr (n : ℕ) : Cursor CfxValue := do
  match ofUtf8 (← take n) with
  | some s => return .str s
  | none => throw (.protocol "msgpack string is not valid UTF-8")

def readExt (n : ℕ) : Cursor CfxValue := do
  let tag := (← readU8).toBitVec
  if tag = Ext.vector2 ∧ n = 8 then return .vector2 (← readF32) (← readF32)
  else if tag = Ext.vector3 ∧ n = 12 then return .vector3 (← readF32) (← readF32) (← readF32)
  else if tag = Ext.vector4 ∧ n = 16 then
    return .vector4 (← readF32) (← readF32) (← readF32) (← readF32)
  else if tag = Ext.quaternion ∧ n = 16 then
    return .quat (← readF32) (← readF32) (← readF32) (← readF32)
  else return .ext tag (← take n)

section Body

variable (read : Cursor CfxValue)

def readArray (n : ℕ) : Cursor CfxValue := do
  return .array (← repeatRead read n)

def readEntry : Cursor (CfxValue × CfxValue) := do
  return (← read, ← read)

def readMap (n : ℕ) : Cursor CfxValue := do
  return .map (← repeatRead (readEntry read) n)

def hexDigit (n : ℕ) : Char := if n < 10 then Char.ofNat (48 + n) else Char.ofNat (55 + n)

def invalidTag (tag : UInt8) : AldError :=
  .protocol ("invalid msgpack tag 0x" ++
    String.ofList [hexDigit (tag.toNat / 16), hexDigit (tag.toNat % 16)])

/-- What follows a tag; `read` is the recursive call for the members of a container. -/
def readTagged (tag : UInt8) : Cursor CfxValue :=
  match tag with
  | 0xC0 => return .nil
  | 0xC2 => return .bool false
  | 0xC3 => return .bool true
  | 0xCA => return .float (widen (← readF32))
  | 0xCB => return .float (← readF64)
  | 0xCC => return .int ((← readU8).toBitVec.setWidth 64)
  | 0xCD => return .int ((← readU16).setWidth 64)
  | 0xCE => return .int ((← readU32).setWidth 64)
  | 0xCF => return .int (← readWord 64 8)
  | 0xD0 => return .int ((← readU8).toBitVec.signExtend 64)
  | 0xD1 => return .int ((← readWord 16 2).signExtend 64)
  | 0xD2 => return .int ((← readWord 32 4).signExtend 64)
  | 0xD3 => return .int (← readWord 64 8)
  | 0xC4 => do readBin (← readU8).toNat
  | 0xC5 => do readBin (← readU16).toNat
  | 0xC6 => do readBin (← readU32).toNat
  | 0xC7 => do readExt (← readU8).toNat
  | 0xC8 => do readExt (← readU16).toNat
  | 0xC9 => do readExt (← readU32).toNat
  | 0xD4 => readExt 1
  | 0xD5 => readExt 2
  | 0xD6 => readExt 4
  | 0xD7 => readExt 8
  | 0xD8 => readExt 16
  | 0xD9 => do readStr (← readU8).toNat
  | 0xDA => do readStr (← readU16).toNat
  | 0xDB => do readStr (← readU32).toNat
  | 0xDC => do readArray read (← readU16).toNat
  | 0xDD => do readArray read (← readU32).toNat
  | 0xDE => do readMap read (← readU16).toNat
  | 0xDF => do readMap read (← readU32).toNat
  | t =>
    if t ≤ 0x7F then return .int (t.toBitVec.setWidth 64)
    else if 0x80 ≤ t ∧ t ≤ 0x8F then readMap read (t &&& 0x0F).toNat
    else if 0x90 ≤ t ∧ t ≤ 0x9F then readArray read (t &&& 0x0F).toNat
    else if 0xA0 ≤ t ∧ t ≤ 0xBF then readStr (t &&& 0x1F).toNat
    else if 0xE0 ≤ t then return .int (t.toBitVec.signExtend 64)
    else throw (invalidTag t)

def readBody : Cursor CfxValue := do readTagged read (← readU8)

end Body

/-- `read_value` with a bound on the nesting depth. -/
def readAt : ℕ → Cursor CfxValue
  | 0 => throw (.protocol "")
  | depth + 1 => readBody (readAt depth)

/-- Every level of nesting takes a byte, so the bound is never reached. -/
def readValue : Cursor CfxValue := fun c ↦ (readAt (c.length + 1)).run c

section Depth

variable {n : ℕ} {read read' : Cursor CfxValue}

theorem agree_readU8 : Agree n readU8 readU8 := agree_readByte _

theorem agree_take (k : ℕ) : Agree n (take k) (take k) := agree_takeBytes _ k

theorem agree_readWord (w k : ℕ) : Agree n (readWord w k) (readWord w k) :=
  (agree_take k).map (fun bytes ↦ BitVec.ofNat w (ofBE bytes))

theorem agree_readBin (k : ℕ) : Agree n (readBin k) (readBin k) := (agree_take k).map CfxValue.bin

theorem agree_readStr (k : ℕ) : Agree n (readStr k) (readStr k) := by
  refine (agree_take k).bind (fun bytes ↦ ?_)
  cases ofUtf8 bytes with
  | none => exact agree_throw _
  | some s => exact agree_pure _

theorem agree_readExt (k : ℕ) : Agree n (readExt k) (readExt k) := by
  have hword {f : BitVec 32 → Cursor CfxValue} (hf : ∀ x, Agree n (f x) (f x)) :
      Agree n (readF32 >>= f) (readF32 >>= f) := (agree_readWord 32 4).bind hf
  refine agree_readU8.bind (fun tag ↦ ?_)
  dsimp only
  split
  · exact hword (fun _ ↦ hword (fun _ ↦ agree_pure _))
  split
  · exact hword (fun _ ↦ hword (fun _ ↦ hword (fun _ ↦ agree_pure _)))
  split
  · exact hword (fun _ ↦ hword (fun _ ↦ hword (fun _ ↦ hword (fun _ ↦ agree_pure _))))
  split
  · exact hword (fun _ ↦ hword (fun _ ↦ hword (fun _ ↦ hword (fun _ ↦ agree_pure _))))
  · exact (agree_take k).map (CfxValue.ext tag.toBitVec)

theorem agree_readArray (h : Agree n read read') (k : ℕ) :
    Agree n (readArray read k) (readArray read' k) := (h.repeat k).map CfxValue.array

theorem agree_readMap (h : Agree n read read') (k : ℕ) :
    Agree n (readMap read k) (readMap read' k) := by
  have hentry : Agree n (readEntry read) (readEntry read') :=
    h.bind (fun _ ↦ h.bind (fun _ ↦ agree_pure _))
  exact (hentry.repeat k).map CfxValue.map

theorem agree_readTagged (h : Agree n read read') (tag : UInt8) :
    Agree n (readTagged read tag) (readTagged read' tag) := by
  have hu8 {f f' : UInt8 → Cursor CfxValue} (hf : ∀ b, Agree n (f b) (f' b)) :
      Agree n (readU8 >>= f) (readU8 >>= f') := agree_readU8.bind hf
  have hword {w k : ℕ} {f f' : BitVec w → Cursor CfxValue} (hf : ∀ x, Agree n (f x) (f' x)) :
      Agree n (readWord w k >>= f) (readWord w k >>= f') := (agree_readWord w k).bind hf
  unfold readTagged
  split
  all_goals first
    | exact agree_pure _
    | exact agree_readExt _
    | exact hu8 (fun _ ↦ agree_pure _)
    | exact hword (fun _ ↦ agree_pure _)
    | exact hu8 (fun b ↦ agree_readBin b.toNat)
    | exact hword (fun x ↦ agree_readBin x.toNat)
    | exact hu8 (fun b ↦ agree_readStr b.toNat)
    | exact hword (fun x ↦ agree_readStr x.toNat)
    | exact hu8 (fun b ↦ agree_readExt b.toNat)
    | exact hword (fun x ↦ agree_readExt x.toNat)
    | exact hword (fun x ↦ agree_readArray h x.toNat)
    | exact hword (fun x ↦ agree_readMap h x.toNat)
    | skip
  split
  · exact agree_pure _
  split
  · exact agree_readMap h _
  split
  · exact agree_readArray h _
  split
  · exact agree_readStr _
  split
  · exact agree_pure _
  · exact agree_throw _

theorem readValue_cons (tag : UInt8) (c : List UInt8) :
    readValue.run (tag :: c) = (readTagged readValue tag).run c := by
  have hlevel (depth : ℕ) : readAt (depth + 1) = (do readTagged (readAt depth) (← readU8)) := rfl
  exact levels_cons (fun _ _ _ tag h ↦ agree_readTagged h tag) hlevel tag c

end Depth

def unpack (bytes : List UInt8) : Except AldError CfxValue := do
  return (← readValue.run bytes).1

end Aldivine.Serialization.Unpack
