import Aldivine.Foundation.Text
import Aldivine.Foundation.Wire

namespace Aldivine.Snapshots.Codec

open Foundation.Text Foundation.Wire Std

def magic : List UInt8 := [0x41, 0x4C, 0x44, 0x53, 0x4E, 0x41, 0x50, 0x31]

def supportedSchemas : List (BitVec 32) := [1]

def maxKeyLen : ℕ := 256

def maxValueLen : ℕ := 4096576

inductive SnapshotError
  | badMagic
  | unsupportedSchema (schema : BitVec 32)
  | truncated
  | checksumMismatch
  | keyTooLong (len : ℕ)
  | badKeyEncoding
  | duplicateKey
  | valueTooLong (len : ℕ)
  | tooManyEntries
deriving DecidableEq

/-- The entries are a `BTreeMap`: they are walked in the order of their keys. -/
structure Snapshot where
  schemaVersion : BitVec 32
  tick : BitVec 64
  entries : ExtTreeMap String (List UInt8)

abbrev Digest := { sum : List UInt8 // sum.length = 32 }

def encodeEntries : List (String × List UInt8) → Except SnapshotError (List UInt8)
  | [] => .ok []
  | (k, v) :: entries =>
    if (utf8 k).length > maxKeyLen then .error (.keyTooLong (utf8 k).length)
    else if v.length > maxValueLen then .error (.valueTooLong v.length)
    else do
      let out ← encodeEntries entries
      return toBE 2 (utf8 k).length ++ utf8 k ++ toBE 4 v.length ++ v ++ out

variable (digest : List UInt8 → Digest)

def Snapshot.encode (s : Snapshot) : Except SnapshotError (List UInt8) :=
  if s.schemaVersion ∉ supportedSchemas then .error (.unsupportedSchema s.schemaVersion)
  else if s.entries.size > 2 ^ 32 - 1 then .error .tooManyEntries
  else do
    let entries ← encodeEntries s.entries.toList
    let out := magic ++ toBE 4 s.schemaVersion.toNat ++ toBE 8 s.tick.toNat ++
      toBE 4 s.entries.size ++ entries
    return out ++ (digest out).1

abbrev Cursor := Reader SnapshotError

def take (n : ℕ) : Cursor (List UInt8) := takeBytes .truncated n

def u16 : Cursor (BitVec 16) := BitVec.ofNat 16 <$> readBE .truncated 2

def u32 : Cursor (BitVec 32) := BitVec.ofNat 32 <$> readBE .truncated 4

def u64 : Cursor (BitVec 64) := BitVec.ofNat 64 <$> readBE .truncated 8

def readKey (klen : ℕ) : Cursor String := do
  if klen > maxKeyLen ∨ klen = 0 then throw (.keyTooLong klen)
  match ofUtf8 (← take klen) with
  | some key => return key
  | none => throw .badKeyEncoding

def readValue (vlen : ℕ) : Cursor (List UInt8) := do
  if vlen > maxValueLen then throw (.valueTooLong vlen)
  take vlen

def readEntries : ℕ → ExtTreeMap String (List UInt8) → Cursor (ExtTreeMap String (List UInt8))
  | 0, entries => return entries
  | count + 1, entries => do
    let klen ← u16
    let key ← readKey klen.toNat
    let vlen ← u32
    let value ← readValue vlen.toNat
    if entries.contains key then throw .duplicateKey
    readEntries count (entries.insert key value)

/-- `decode` up to the trailer. -/
def readSnapshot : Cursor Snapshot := do
  if (← take 8) ≠ magic then throw .badMagic
  let schema ← u32
  if schema ∉ supportedSchemas then throw (.unsupportedSchema schema)
  let tick ← u64
  let count ← u32
  if count.toNat > 1000000 then throw .tooManyEntries
  return ⟨schema, tick, ← readEntries count.toNat ∅⟩

def decode (bytes : List UInt8) : Except SnapshotError Snapshot := do
  let (s, rest) ← readSnapshot.run bytes
  let body := bytes.take (bytes.length - 32)
  let trailer := bytes.drop (bytes.length - 32)
  if trailer.length ≠ 32 ∨ rest.length ≠ 32 then throw .truncated
  if (digest body).1 ≠ trailer then throw .checksumMismatch
  return s

end Aldivine.Snapshots.Codec
