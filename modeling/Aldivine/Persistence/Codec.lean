import Aldivine.Foundation.Machine
import Aldivine.Foundation.Text
import Aldivine.Foundation.Wire

namespace Aldivine.Persistence.Codec

open Foundation.Machine Foundation.Text Foundation.Wire

def maxKeyLen : ℕ := 256
def maxValueLen : ℕ := 1048576
def maxPayloadLen : ℕ := 64 * 1024 * 1024

def checkpointMagic : List UInt8 := [0x41, 0x4C, 0x44, 0x43, 0x4B, 0x50, 0x54, 0x31]

abbrev Digest := { sum : List UInt8 // sum.length = 32 }

inductive Op
  | put
  | delete
deriving DecidableEq

structure Record where
  seq : BitVec 64
  op : Op
  key : String
  value : List UInt8
deriving DecidableEq

inductive PersistError
  | badKey (text : String)
  | tooLarge (len : ℕ)
  | corrupt (offset : ℕ)
  | badCheckpoint
deriving DecidableEq

inductive RecordDecode
  | torn
  | corrupt
deriving DecidableEq

def Op.tag : Op → UInt8
  | .put => 1
  | .delete => 2

def fieldBytes (r : Record) : List UInt8 :=
  toBE 8 r.seq.toNat ++ ([r.op.tag] ++ (toBE 2 (utf8 r.key).length ++ (utf8 r.key ++
    (toBE 4 r.value.length ++ r.value))))

/-- Reading the fields either panics on an index out of range or reports corruption. -/
inductive Fault
  | panic
  | corrupt
deriving DecidableEq

def readOp (tag : UInt8) : Reader Fault Op :=
  if tag = 1 then return .put
  else if tag = 2 then return .delete
  else throw .corrupt

def readKey (klen : ℕ) : Reader Fault String := do
  if klen = 0 ∨ klen > maxKeyLen then throw .corrupt
  match ofUtf8 (← takeBytes .corrupt klen) with
  | some key => return key
  | none => throw .corrupt

def readValue (vlen : ℕ) : Reader Fault (List UInt8) := do
  if vlen > maxValueLen then throw .corrupt
  takeBytes .corrupt vlen

/-- `decode_record` behind the checksum: the sequence, the tag and the length of the key are
indexed, the rest is got. -/
def readFields : Reader Fault Record := do
  let seq ← readBE .panic 8
  if BitVec.ofNat 64 seq = 0 then throw .corrupt
  let op ← readOp (← readByte .panic)
  let key ← readKey (← readBE .panic 2)
  let value ← readValue (← readBE .corrupt 4)
  return ⟨BitVec.ofNat 64 seq, op, key, value⟩

variable (digest : List UInt8 → Digest)

def encodeRecord (r : Record) : List UInt8 :=
  let body := fieldBytes r ++ (digest (fieldBytes r)).1
  toBE 4 body.length ++ body

/-- A length below the checksum's makes `total - 32` underflow or `split_at` run out of range. -/
def decodeRecord (buf : List UInt8) : Outcome RecordDecode (Record × ℕ) :=
  if buf.length < 4 then .err .torn
  else
    let total := ofBE (buf.take 4)
    if total > 4 + 8 + 1 + 2 + maxKeyLen + 4 + maxValueLen + 32 then .err .corrupt
    else if buf.length < 4 + total then .err .torn
    else if total < 32 then .panic
    else
      let body := (buf.drop 4).take total
      let fields := body.take (total - 32)
      if (digest fields).1 ≠ body.drop (total - 32) then .err .corrupt
      else
        match readFields.run fields with
        | .error .panic => .panic
        | .error .corrupt => .err .corrupt
        | .ok (r, []) => .ok (r, 4 + total)
        | .ok (_, _ :: _) => .err .corrupt

def encodeCheckpoint (seq : BitVec 64) (payload : List UInt8) : List UInt8 :=
  let body := checkpointMagic ++ (toBE 8 seq.toNat ++ (toBE 8 payload.length ++ payload))
  body ++ (digest body).1

def readCheckpoint : Option (List UInt8) → Except PersistError (Option (BitVec 64 × List UInt8))
  | none => .ok none
  | some bytes =>
    if bytes.length < 8 + 8 + 8 + 32 then .ok none
    else if bytes.take 8 ≠ checkpointMagic then .error .badCheckpoint
    else
      let seq := BitVec.ofNat 64 (ofBE ((bytes.drop 8).take 8))
      let len := ofBE ((bytes.drop 16).take 8)
      if len > maxPayloadLen then .error .badCheckpoint
      else
        let total := 24 + len + 32
        if bytes.length < total then .ok none
        else if bytes.length > total then .error .badCheckpoint
        else if (digest (bytes.take (total - 32))).1 ≠ bytes.drop (total - 32) then
          .error .badCheckpoint
        else .ok (some (seq, (bytes.drop 24).take len))

variable {digest}

theorem decodeRecord_used {buf : List UInt8} {r : Record} {used : ℕ}
    (h : decodeRecord digest buf = .ok (r, used)) : 4 ≤ used := by
  unfold decodeRecord at h
  split at h
  · cases h
  · dsimp only at h
    split at h
    · cases h
    · split at h
      · cases h
      · split at h
        · cases h
        · split at h
          · cases h
          · split at h <;> cases h
            exact Nat.le_add_right 4 _

variable (digest)

/-- The loop of `read_journal` from the offset `pos` on. -/
def readRecords (bytes : List UInt8) (pos : ℕ) (records : List Record) :
    Outcome PersistError (List Record × Bool × ℕ) :=
  if bytes = [] then .ok (records, false, pos)
  else
    match _h : decodeRecord digest bytes with
    | .ok (r, used) => readRecords (bytes.drop used) (pos + used) (records ++ [r])
    | .err .torn => .ok (records, true, pos)
    | .err .corrupt => .err (.corrupt pos)
    | .panic => .panic
termination_by bytes.length
decreasing_by
  have hused := decodeRecord_used _h
  have hpos := List.length_pos_iff.mpr ‹bytes ≠ []›
  rw [List.length_drop]
  omega

end Aldivine.Persistence.Codec
