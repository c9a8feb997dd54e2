import Aldivine.Foundation.Checked
import Aldivine.Persistence.Model
import Aldivine.Persistence.RoundTrip

namespace Aldivine.Persistence.Bounds

open Foundation.Checked Foundation.Machine Foundation.Text Foundation.Wire Codec RoundTrip

section Reading

variable (digest : List UInt8 → Digest)

def recordOp (tag : UInt8) : Outcome RecordDecode Op :=
  if tag = 1 then return .put else if tag = 2 then return .delete else .err .corrupt

/-- `decode_record` behind the checksum, with every slice, index and sum as the source has it. -/
def decodeFields (fields : List UInt8) : Outcome RecordDecode Record := do
  let seq := BitVec.ofNat 64 (ofBE (← sliceRange fields 0 8))
  refuse (seq = 0) .corrupt
  let op ← recordOp (← index fields 8)
  let klen := ofBE (← sliceRange fields 9 11)
  refuse (klen = 0 ∨ klen > maxKeyLen) .corrupt
  let kend ← plus 11 klen
  let key ← okOr (ofUtf8 (← okOr (getRange fields 11 kend) .corrupt)) .corrupt
  let vstart ← plus kend 4
  let vlen := ofBE (← okOr (getRange fields kend vstart) .corrupt)
  refuse (vlen > maxValueLen) .corrupt
  let vend ← plus vstart vlen
  let value ← okOr (getRange fields vstart vend) .corrupt
  refuse (vend ≠ fields.length) .corrupt
  return ⟨seq, op, key, value⟩

def decodeRecord (buf : List UInt8) : Outcome RecordDecode (Record × ℕ) := do
  refuse (buf.length < 4) .torn
  let total := ofBE (← sliceRange buf 0 4)
  refuse (total > 4 + 8 + 1 + 2 + maxKeyLen + 4 + maxValueLen + 32) .corrupt
  let stop ← plus 4 total
  refuse (buf.length < stop) .torn
  let body ← sliceRange buf 4 stop
  let cut ← minus total 32
  let fields ← sliceRange body 0 cut
  let sum ← sliceRange body cut body.length
  refuse ((digest fields).1 ≠ sum) .corrupt
  let r ← decodeFields fields
  return (r, stop)

def readCheckpoint (content : Option (List UInt8)) :
    Outcome PersistError (Option (BitVec 64 × List UInt8)) :=
  match content with
  | none => return none
  | some bytes =>
    if bytes.length < 8 + 8 + 8 + 32 then return none
    else do
      refuse ((← sliceRange bytes 0 8) ≠ checkpointMagic) .badCheckpoint
      let seq := BitVec.ofNat 64 (ofBE (← sliceRange bytes 8 16))
      let len := ofBE (← sliceRange bytes 16 24)
      refuse (len > maxPayloadLen) .badCheckpoint
      let total ← plus (← plus 24 len) 32
      if bytes.length < total then return none
      else do
        refuse (bytes.length > total) .badCheckpoint
        let cut ← minus total 32
        let body ← sliceRange bytes 0 cut
        let sum ← sliceRange bytes cut bytes.length
        refuse ((digest body).1 ≠ sum) .badCheckpoint
        return some (seq, ← sliceRange bytes 24 (← plus 24 len))

end Reading

variable {digest : List UInt8 → Digest}

section Checkpoint

theorem sliceRange_eq {α ε : Type} {l : List α} {lo hi : ℕ} (hle : lo ≤ hi) (hin : hi ≤ l.length) :
    (sliceRange l lo hi : Outcome ε (List α)) = .ok ((l.drop lo).take (hi - lo)) := by
  rw [sliceRange, getRange_of_le hle hin]
  rfl

theorem plus_eq {ε : Type} {a b : ℕ} (h : a + b < 2 ^ 64) :
    (plus a b : Outcome ε ℕ) = .ok (a + b) := if_pos h

theorem minus_eq {ε : Type} {a b : ℕ} (h : b ≤ a) : (minus a b : Outcome ε ℕ) = .ok (a - b) :=
  if_pos h

/-- Every position in a checkpoint has been compared with its length before. -/
theorem ensures_readCheckpoint (content : Option (List UInt8)) :
    Ensures (readCheckpoint digest content) (fun _ ↦ True) := by
  cases content with
  | none => exact ensures_pure trivial
  | some bytes =>
    unfold readCheckpoint
    dsimp only
    split
    · exact ensures_pure trivial
    rename_i hlen
    refine (yields_sliceRange (by omega) (by omega)).ensures.bind (fun magic _ ↦ ?_)
    refine ensures_refuse.bind (fun _ _ ↦ ?_)
    refine (yields_sliceRange (by omega) (by omega)).ensures.bind (fun seq _ ↦ ?_)
    refine (yields_sliceRange (by omega) (by omega)).ensures.bind (fun count _ ↦ ?_)
    refine ensures_refuse.bind (fun _ hfits ↦ ?_)
    have hmax : ofBE count ≤ maxPayloadLen := not_lt.mp hfits
    rw [maxPayloadLen] at hmax
    refine (ensures_plus (by omega)).bind (fun header hheader ↦ ?_)
    refine (ensures_plus (by omega)).bind (fun total htotal ↦ ?_)
    split
    · exact ensures_pure trivial
    rename_i hwhole
    refine ensures_refuse.bind (fun _ _ ↦ ?_)
    refine (yields_minus (by omega)).ensures.bind (fun cut hcut ↦ ?_)
    refine (yields_sliceRange (by omega) (by omega)).ensures.bind (fun body _ ↦ ?_)
    refine (yields_sliceRange (by omega) le_rfl).ensures.bind (fun sum _ ↦ ?_)
    refine ensures_refuse.bind (fun _ _ ↦ ?_)
    refine (ensures_plus (by omega)).bind (fun stop hstop ↦ ?_)
    refine (yields_sliceRange (by omega) (by omega)).ensures.bind (fun payload _ ↦ ?_)
    exact ensures_pure trivial

theorem readCheckpoint_eq (content : Option (List UInt8)) :
    readCheckpoint digest content =
      match Codec.readCheckpoint digest content with
      | .ok found => .ok found
      | .error e => .err e := by
  cases content with
  | none => rfl
  | some bytes =>
    unfold readCheckpoint Codec.readCheckpoint
    dsimp only
    split
    · rfl
    rename_i hlen
    rw [sliceRange_eq (Nat.zero_le _) (by omega), ok_bind, List.drop_zero, Nat.sub_zero, refuse]
    split
    · rfl
    have hseq : (sliceRange bytes 8 16 : Outcome PersistError _) = .ok ((bytes.drop 8).take 8) :=
      sliceRange_eq (by omega) (by omega)
    have hcount : (sliceRange bytes 16 24 : Outcome PersistError _) = .ok ((bytes.drop 16).take 8) :=
      sliceRange_eq (by omega) (by omega)
    rw [ok_bind, hseq, ok_bind, hcount, ok_bind, refuse]
    split
    · rfl
    rename_i hfits
    have hmax : ofBE ((bytes.drop 16).take 8) ≤ 64 * 1024 * 1024 := not_lt.mp hfits
    rw [ok_bind, plus_eq (by omega), ok_bind, plus_eq (by omega), ok_bind]
    split
    · rfl
    rename_i hwhole
    rw [refuse]
    split
    · rfl
    rename_i hexact
    rw [ok_bind, minus_eq (by omega), ok_bind, sliceRange_eq (Nat.zero_le _) (by omega), ok_bind,
      sliceRange_eq (by omega) le_rfl, ok_bind, List.drop_zero, Nat.sub_zero, ← List.length_drop,
      List.take_length, refuse]
    split
    · rfl
    rw [ok_bind, ok_bind, sliceRange_eq (Nat.le_add_right 24 _) (by omega), ok_bind,
      Nat.add_sub_cancel_left]
    rfl

end Checkpoint

section Fields

variable {fields : List UInt8}

theorem sliceRange_panic {α ε : Type} {l : List α} {lo hi : ℕ} (h : l.length < hi) :
    (sliceRange l lo hi : Outcome ε (List α)) = .panic := by
  rw [sliceRange, getRange, if_neg (by omega)]
  rfl

theorem getRange_eq {l : List UInt8} {i k : ℕ} :
    getRange l i (i + k) = if i + k ≤ l.length then some ((l.drop i).take k) else none := by
  unfold getRange
  rw [Nat.add_sub_cancel_left]
  exact if_congr (and_iff_right (Nat.le_add_right i k)) rfl rfl

def settled : Except Fault (Record × List UInt8) → Outcome RecordDecode Record
  | .error .panic => .panic
  | .error .corrupt => .err .corrupt
  | .ok (r, []) => .ok r
  | .ok (_, _ :: _) => .err .corrupt

variable {i k : ℕ}

theorem settled_takeBytes {f : List UInt8 → Reader Fault Record} (hi : i ≤ fields.length) :
    settled ((takeBytes .corrupt k >>= f).run (fields.drop i)) =
      okOr (getRange fields i (i + k)) .corrupt >>= fun part ↦
        settled ((f part).run (fields.drop (i + k))) := by
  have hlen : k ≤ (fields.drop i).length ↔ i + k ≤ fields.length := by
    rw [List.length_drop]
    omega
  rw [StateT.run_bind, getRange_eq]
  unfold takeBytes
  simp only [StateT.run, hlen]
  split
  · rw [List.drop_drop]
    rfl
  · rfl

theorem settled_readBE {f : ℕ → Reader Fault Record} (hi : i ≤ fields.length) :
    settled ((readBE .corrupt k >>= f).run (fields.drop i)) =
      okOr (getRange fields i (i + k)) .corrupt >>= fun part ↦
        settled ((f (ofBE part)).run (fields.drop (i + k))) := by
  rw [readBE, bind_assoc]
  exact settled_takeBytes hi

theorem settled_readBE_panic {f : ℕ → Reader Fault Record} (hi : i ≤ fields.length) :
    settled ((readBE .panic k >>= f).run (fields.drop i)) =
      sliceRange fields i (i + k) >>= fun part ↦
        settled ((f (ofBE part)).run (fields.drop (i + k))) := by
  have hlen : k ≤ (fields.drop i).length ↔ i + k ≤ fields.length := by
    rw [List.length_drop]
    omega
  rw [readBE, bind_assoc, StateT.run_bind, sliceRange, getRange_eq]
  unfold takeBytes
  simp only [StateT.run, hlen]
  split
  · rw [List.drop_drop]
    rfl
  · rfl

theorem settled_readByte {f : UInt8 → Reader Fault Record} :
    settled ((readByte .panic >>= f).run (fields.drop i)) =
      index fields i >>= fun b ↦ settled ((f b).run (fields.drop (i + 1))) := by
  rw [StateT.run_bind, index]
  by_cases hi : i < fields.length
  · rw [List.getElem?_eq_getElem hi, List.drop_eq_getElem_cons hi]
    rfl
  · rw [List.getElem?_eq_none (not_lt.mp hi), List.drop_eq_nil_of_le (not_lt.mp hi)]
    rfl

theorem settled_readOp {f : Op → Reader Fault Record} {tag : UInt8} {c : List UInt8} :
    settled ((readOp tag >>= f).run c) = recordOp tag >>= fun op ↦ settled ((f op).run c) := by
  unfold readOp recordOp
  split
  · rfl
  split
  · rfl
  · rfl

theorem settled_readKey {f : String → Reader Fault Record} {klen : ℕ} (hi : i ≤ fields.length)
    (hklen : ¬(klen = 0 ∨ klen > maxKeyLen)) :
    settled ((readKey klen >>= f).run (fields.drop i)) =
      okOr (getRange fields i (i + klen)) .corrupt >>= fun part ↦
        okOr (ofUtf8 part) .corrupt >>= fun key ↦
          settled ((f key).run (fields.drop (i + klen))) := by
  simp only [readKey, if_neg hklen, bind_assoc]
  rw [settled_takeBytes hi]
  refine bind_congr_ok (fun part _ ↦ ?_)
  cases ofUtf8 part with
  | none => rfl
  | some key => rfl

theorem settled_readValue {f : List UInt8 → Reader Fault Record} {vlen : ℕ}
    (hi : i ≤ fields.length) (hvlen : ¬vlen > maxValueLen) :
    settled ((Codec.readValue vlen >>= f).run (fields.drop i)) =
      okOr (getRange fields i (i + vlen)) .corrupt >>= fun part ↦
        settled ((f part).run (fields.drop (i + vlen))) := by
  simp only [Codec.readValue, if_neg hvlen]
  exact settled_takeBytes hi

theorem decodeFields_eq (fields : List UInt8) :
    decodeFields fields = settled (readFields.run fields) := by
  have hstart : readFields.run fields = readFields.run (fields.drop 0) := rfl
  rw [hstart]
  unfold decodeFields readFields
  rw [settled_readBE_panic (Nat.zero_le _)]
  refine bind_congr_ok (fun seq hseq ↦ ?_)
  by_cases hzero : BitVec.ofNat 64 (ofBE seq) = 0
  · simp only [refuse, if_pos hzero]
    rfl
  simp only [refuse, if_neg hzero, ok_bind]
  rw [settled_readByte]
  refine bind_congr_ok (fun tag htag ↦ ?_)
  rw [settled_readOp]
  refine bind_congr_ok (fun op hop ↦ ?_)
  have h9 : 9 ≤ fields.length := (List.getElem?_eq_some_iff.mp (index_eq_ok htag)).1
  rw [settled_readBE_panic h9]
  refine bind_congr_ok (fun count hcount ↦ ?_)
  obtain ⟨h11, htwo⟩ := getRange_eq_some (sliceRange_eq_ok hcount)
  have hbound : ofBE count < 256 ^ 2 := by
    rw [← show count.length = 2 by omega]
    exact ofBE_lt count
  by_cases hklen : ofBE count = 0 ∨ ofBE count > maxKeyLen
  · simp only [if_pos hklen]
    simp only [readKey, if_pos hklen]
    rfl
  rw [settled_readKey h11 hklen]
  simp only [if_neg hklen, ok_bind, plus_eq (show 11 + ofBE count < 2 ^ 64 by omega)]
  refine bind_congr_ok (fun part hpart ↦ ?_)
  refine bind_congr_ok (fun key hkey ↦ ?_)
  have hkend : 11 + ofBE count ≤ fields.length := (getRange_eq_some (okOr_eq_ok.mp hpart)).1
  rw [settled_readBE hkend]
  simp only [plus_eq (show 11 + ofBE count + 4 < 2 ^ 64 by omega), ok_bind]
  refine bind_congr_ok (fun size hsize ↦ ?_)
  have hvstart : 11 + ofBE count + 4 ≤ fields.length := (getRange_eq_some (okOr_eq_ok.mp hsize)).1
  by_cases hvlen : ofBE size > maxValueLen
  · simp only [if_pos hvlen, Codec.readValue]
    rfl
  have hmax : ofBE size ≤ 1048576 := not_lt.mp hvlen
  rw [settled_readValue hvstart hvlen]
  simp only [if_neg hvlen, ok_bind, plus_eq (show 11 + ofBE count + 4 + ofBE size < 2 ^ 64 by omega)]
  refine bind_congr_ok (fun value hvalue ↦ ?_)
  have hvend := (getRange_eq_some (okOr_eq_ok.mp hvalue)).1
  by_cases hend : 11 + ofBE count + 4 + ofBE size = fields.length
  · simp only [hend, List.drop_length, if_neg (not_not.mpr (Eq.refl fields.length))]
    rfl
  · simp only [if_pos hend]
    rw [List.drop_eq_getElem_cons (hvend.lt_of_ne hend)]
    rfl

end Fields

section Records

variable {buf : List UInt8}

theorem decodeRecord_eq (buf : List UInt8) :
    decodeRecord digest buf = Codec.decodeRecord digest buf := by
  unfold decodeRecord Codec.decodeRecord
  by_cases h4 : buf.length < 4
  · simp only [refuse, if_pos h4]
    rfl
  simp only [refuse, if_neg h4, ok_bind, sliceRange_eq (Nat.zero_le 4) (not_lt.mp h4),
    List.drop_zero, Nat.sub_zero]
  by_cases hmax : ofBE (buf.take 4) > 4 + 8 + 1 + 2 + maxKeyLen + 4 + maxValueLen + 32
  · simp only [if_pos hmax]
    rfl
  have hsmall : ofBE (buf.take 4) ≤ 4 + 8 + 1 + 2 + 256 + 4 + 1048576 + 32 := not_lt.mp hmax
  simp only [if_neg hmax, ok_bind, plus_eq (show 4 + ofBE (buf.take 4) < 2 ^ 64 by omega)]
  by_cases hshort : buf.length < 4 + ofBE (buf.take 4)
  · simp only [if_pos hshort]
    rfl
  simp only [if_neg hshort, ok_bind, sliceRange_eq (Nat.le_add_right 4 _) (not_lt.mp hshort),
    Nat.add_sub_cancel_left]
  by_cases hcut : ofBE (buf.take 4) < 32
  · simp only [if_pos hcut, minus, if_neg (not_le.mpr hcut)]
    rfl
  have hlen : ((buf.drop 4).take (ofBE (buf.take 4))).length = ofBE (buf.take 4) := by
    rw [List.length_take, List.length_drop]
    omega
  generalize (buf.drop 4).take (ofBE (buf.take 4)) = body at hlen ⊢
  simp only [if_neg hcut, minus_eq (not_lt.mp hcut), ok_bind]
  rw [sliceRange_eq (Nat.zero_le _) (by omega), ok_bind, sliceRange_eq (by omega) le_rfl, ok_bind]
  have hsum : (body.drop (ofBE (buf.take 4) - 32)).take (body.length - (ofBE (buf.take 4) - 32)) =
      body.drop (ofBE (buf.take 4) - 32) := by
    rw [← List.length_drop]
    exact List.take_length
  simp only [List.drop_zero, Nat.sub_zero, hsum]
  by_cases hdigest : (digest (body.take (ofBE (buf.take 4) - 32))).1 ≠
      body.drop (ofBE (buf.take 4) - 32)
  · simp only [if_pos hdigest]
    rfl
  simp only [if_neg hdigest, ok_bind, decodeFields_eq]
  cases readFields.run (body.take (ofBE (buf.take 4) - 32)) with
  | error fault => cases fault <;> rfl
  | ok result =>
    obtain ⟨r, rest⟩ := result
    cases rest <;> rfl

theorem recordOp_eq_ok {tag : UInt8} {op : Op} : recordOp tag = .ok op ↔ tag = op.tag := by
  unfold recordOp
  split
  · rename_i htag
    cases op with
    | put => exact iff_of_true rfl htag
    | delete => exact iff_of_false nofun (by rw [htag]; decide)
  split
  · rename_i htag
    cases op with
    | put => exact iff_of_false nofun (by rw [htag]; decide)
    | delete => exact iff_of_true rfl htag
  · rename_i hput hdelete
    cases op with
    | put => exact iff_of_false nofun hput
    | delete => exact iff_of_false nofun hdelete

theorem getRange_slice {fields part : List UInt8} {i k : ℕ}
    (h : getRange fields i (i + k) = some part) :
    part = slice fields i k ∧ part.length = k ∧ i + k ≤ fields.length := by
  obtain ⟨hle, hlen⟩ := getRange_eq_some h
  rw [getRange_eq, if_pos hle] at h
  exact ⟨(Option.some.inj h).symm, Nat.add_left_cancel hlen, hle⟩

theorem toBE_of_length {part : List UInt8} {k : ℕ} (h : part.length = k) : toBE k (ofBE part) = part := by
  rw [← h, toBE_ofBE]

theorem decodeFields_ok {fields : List UInt8} {r : Record} (h : decodeFields fields = .ok r) :
    Valid r ∧ fields = fieldBytes r := by
  unfold decodeFields at h
  simp only [bind_eq_ok, okOr_eq_ok, refuse_eq_ok, recordOp_eq_ok, plus_eq_ok] at h
  obtain ⟨seq, hseq, -, hzero, tag, htag, op, hop, count, hcount, -, hklen, -, ⟨-, rfl⟩, part, hpart,
    key, hkey, -, ⟨-, rfl⟩, size, hsize, -, hvlen, -, ⟨-, rfl⟩, value, hvalue, -, hend, heq⟩ := h
  cases heq
  obtain ⟨hseq, hseqLen, -⟩ := getRange_slice (i := 0) (k := 8) (sliceRange_eq_ok hseq)
  obtain ⟨hcount, hcountLen, -⟩ := getRange_slice (i := 9) (k := 2) (sliceRange_eq_ok hcount)
  obtain ⟨hpart, hpartLen, -⟩ := getRange_slice hpart
  obtain ⟨hsize, hsizeLen, -⟩ := getRange_slice hsize
  obtain ⟨hvalue, hvalueLen, -⟩ := getRange_slice hvalue
  have htagSlice : slice fields 8 1 = [op.tag] := by
    obtain ⟨hlt, hget⟩ := List.getElem?_eq_some_iff.mp (index_eq_ok htag)
    rw [slice_one hlt 0, List.getD_eq_getElem?_getD, List.getElem?_eq_getElem hlt, hget,
      Option.getD_some, hop]
  have hbytes : utf8 key = part := utf8_of_ofUtf8 hkey
  have hword : (BitVec.ofNat 64 (ofBE seq)).toNat = ofBE seq := by
    have hlt := ofBE_lt seq
    rw [hseqLen] at hlt
    rw [BitVec.toNat_ofNat]
    exact Nat.mod_eq_of_lt hlt
  constructor
  · refine ⟨hzero, fun hempty ↦ ?_, ?_, ?_⟩
    · subst hempty
      rw [utf8_empty] at hbytes
      rw [← hbytes] at hpartLen
      exact hklen (.inl hpartLen.symm)
    · rw [hbytes]
      omega
    · exact hvalueLen.le.trans (not_lt.mp hvlen)
  · have hsplit : fields = slice fields 0 8 ++ (slice fields 8 1 ++ (slice fields 9 2 ++
        (slice fields 11 (ofBE count) ++ (slice fields (11 + ofBE count) 4 ++
          slice fields (11 + ofBE count + 4) (ofBE size))))) := by
      calc fields = slice fields 0 (8 + (1 + (2 + (ofBE count + (4 + ofBE size))))) :=
          (slice_all (by omega)).symm
        _ = _ := by
          rw [← slice_append_slice, ← slice_append_slice, ← slice_append_slice,
            ← slice_append_slice, ← slice_append_slice]
    rw [fieldBytes]
    dsimp only
    rw [hword, hbytes, hpartLen, hvalueLen, toBE_of_length hseqLen, toBE_of_length hcountLen,
      toBE_of_length hsizeLen, ← htagSlice]
    rw [← hseq, ← hcount, ← hpart, ← hsize, ← hvalue] at hsplit
    exact hsplit

/-- The fields end before the length of the key, and nothing is wrong with those there are. -/
def Short (fields : List UInt8) : Prop :=
  fields.length < 11 ∧
    (8 ≤ fields.length → ofBE (fields.take 8) ≠ 0 ∧ ∀ tag ∈ fields[8]?, tag = 1 ∨ tag = 2)

theorem word_eq_zero {part : List UInt8} (h : part.length = 8) :
    BitVec.ofNat 64 (ofBE part) = 0 ↔ ofBE part = 0 := by
  have hlt : ofBE part < 2 ^ 64 := by
    have hlt := ofBE_lt part
    rwa [h] at hlt
  rw [← BitVec.toNat_inj, BitVec.toNat_ofNat, Nat.mod_eq_of_lt hlt]
  rfl

theorem decodeFields_panic_iff {fields : List UInt8} :
    decodeFields fields = .panic ↔ Short fields := by
  unfold decodeFields
  by_cases h8 : 8 ≤ fields.length
  swap
  · rw [sliceRange_panic (not_le.mp h8)]
    exact iff_of_true rfl ⟨by omega, fun h ↦ absurd h h8⟩
  rw [sliceRange_eq (Nat.zero_le 8) h8, ok_bind]
  simp only [List.drop_zero, Nat.sub_zero]
  have hlen : (fields.take 8).length = 8 := List.length_take_of_le h8
  by_cases hzero : BitVec.ofNat 64 (ofBE (fields.take 8)) = 0
  · simp only [refuse, if_pos hzero]
    exact iff_of_false (err_ne_panic _) (fun h ↦ (h.2 h8).1 ((word_eq_zero hlen).mp hzero))
  simp only [refuse, if_neg hzero, ok_bind]
  have hseq : ofBE (fields.take 8) ≠ 0 := fun h ↦ hzero ((word_eq_zero hlen).mpr h)
  by_cases h9 : 8 < fields.length
  swap
  · have hnone : fields[8]? = none := List.getElem?_eq_none (not_lt.mp h9)
    rw [index, hnone]
    exact iff_of_true rfl ⟨by omega, fun _ ↦ ⟨hseq, by simp [hnone]⟩⟩
  have hsome : fields[8]? = some fields[8] := List.getElem?_eq_getElem h9
  rw [index, hsome, Option.elim_some, ok_bind]
  by_cases hop : fields[8] = 1 ∨ fields[8] = 2
  swap
  · rw [not_or] at hop
    rw [recordOp, if_neg hop.1, if_neg hop.2]
    refine iff_of_false (err_ne_panic _) (fun h ↦ ?_)
    exact ((h.2 h8).2 _ hsome).elim hop.1 hop.2
  have hread : ∃ op, recordOp fields[8] = .ok op := by
    rcases hop with hop | hop
    · exact ⟨.put, by rw [recordOp, if_pos hop]; rfl⟩
    · exact ⟨.delete, recordOp_eq_ok.mpr hop⟩
  obtain ⟨op, hread⟩ := hread
  rw [hread, ok_bind]
  by_cases h11 : 11 ≤ fields.length
  swap
  · rw [sliceRange_panic (not_le.mp h11)]
    refine iff_of_true rfl ⟨not_le.mp h11, fun _ ↦ ⟨hseq, ?_⟩⟩
    rw [hsome]
    intro tag htag
    cases htag
    exact hop
  -- from here on the fields are got, and not indexed
  refine iff_of_false (Ensures.ne_panic (P := fun _ ↦ True) ?_)
    (fun h ↦ absurd h.1 (not_lt.mpr h11))
  refine (yields_sliceRange (by omega) h11).ensures.bind (fun count hcount ↦ ?_)
  have hbound : ofBE count < 256 ^ 2 := by
    rw [← show count.length = 2 by omega]
    exact ofBE_lt count
  refine ensures_refuse.bind (fun _ _ ↦ ?_)
  refine (ensures_plus (by omega)).bind (fun kend hkend ↦ ?_)
  refine ensures_okOr.bind (fun part _ ↦ ?_)
  refine ensures_okOr.bind (fun key _ ↦ ?_)
  refine (ensures_plus (by omega)).bind (fun vstart hvstart ↦ ?_)
  refine ensures_okOr.bind (fun size _ ↦ ?_)
  refine ensures_refuse.bind (fun _ hfits ↦ ?_)
  have hvlen : ofBE size ≤ 1048576 := not_lt.mp hfits
  refine (ensures_plus (by omega)).bind (fun vend _ ↦ ?_)
  refine ensures_okOr.bind (fun value _ ↦ ?_)
  refine ensures_refuse.bind (fun _ _ ↦ ?_)
  exact ensures_pure trivial

/-- A whole frame whose length is below that of the checksum, or whose checked fields are short. -/
def Stunted (digest : List UInt8 → Digest) (buf : List UInt8) : Prop :=
  ∃ frame rest, buf = toBE 4 frame.length ++ (frame ++ rest) ∧
    (frame.length < 32 ∨ ∃ fields, frame = fields ++ (digest fields).1 ∧ Short fields)

def maxFrame : ℕ := 4 + 8 + 1 + 2 + maxKeyLen + 4 + maxValueLen + 32

/-- Only what has a whole frame of a sensible length in front is more than torn or corrupt. -/
theorem frame_of_decodeRecord {buf : List UInt8} (h : ∀ e, decodeRecord digest buf ≠ .err e) :
    ∃ frame rest, frame.length ≤ maxFrame ∧ buf = toBE 4 frame.length ++ (frame ++ rest) := by
  unfold decodeRecord at h
  by_cases h4 : buf.length < 4
  · simp only [refuse, if_pos h4] at h
    exact absurd rfl (h .torn)
  simp only [refuse, if_neg h4, ok_bind, sliceRange_eq (Nat.zero_le 4) (not_lt.mp h4),
    List.drop_zero, Nat.sub_zero] at h
  have hlen : (buf.take 4).length = 4 := List.length_take_of_le (not_lt.mp h4)
  generalize htotal : ofBE (buf.take 4) = total at h
  by_cases hmax : total > maxFrame
  · simp only [if_pos (show total > 4 + 8 + 1 + 2 + maxKeyLen + 4 + maxValueLen + 32 from hmax)] at h
    exact absurd rfl (h .corrupt)
  have hsmall : total ≤ 4 + 8 + 1 + 2 + 256 + 4 + 1048576 + 32 := not_lt.mp hmax
  simp only [if_neg (show ¬total > 4 + 8 + 1 + 2 + maxKeyLen + 4 + maxValueLen + 32 from hmax),
    ok_bind, plus_eq (show 4 + total < 2 ^ 64 by omega)] at h
  by_cases hshort : buf.length < 4 + total
  · simp only [if_pos hshort] at h
    exact absurd rfl (h .torn)
  have hframe : ((buf.drop 4).take total).length = total := by
    rw [List.length_take, List.length_drop]
    omega
  refine ⟨(buf.drop 4).take total, buf.drop (4 + total), hframe.le.trans (not_lt.mp hmax), ?_⟩
  rw [hframe, ← List.drop_drop, List.take_append_drop, ← htotal, toBE_of_length hlen,
    List.take_append_drop]

theorem decodeRecord_frame {frame rest : List UInt8} (hmax : frame.length ≤ maxFrame) :
    decodeRecord digest (toBE 4 frame.length ++ (frame ++ rest)) = (do
      let cut ← minus frame.length 32
      refuse ((digest (frame.take cut)).1 ≠ frame.drop cut) .corrupt
      let r ← decodeFields (frame.take cut)
      return (r, 4 + frame.length)) := by
  have hsmall : frame.length < 2 ^ 32 := hmax.trans_lt (by decide)
  have hlen : (toBE 4 frame.length ++ (frame ++ rest)).length =
      4 + (frame.length + rest.length) := by
    rw [List.length_append, List.length_append, length_toBE]
  have htake : (toBE 4 frame.length ++ (frame ++ rest)).take 4 = toBE 4 frame.length :=
    List.take_left' (length_toBE 4 _)
  have hbody : ((toBE 4 frame.length ++ (frame ++ rest)).drop 4).take frame.length = frame := by
    rw [List.drop_left' (length_toBE 4 _), List.take_left]
  generalize toBE 4 frame.length ++ (frame ++ rest) = buf at hlen htake hbody ⊢
  unfold decodeRecord
  rw [refuse, if_neg (show ¬buf.length < 4 by omega), ok_bind,
    sliceRange_eq (Nat.zero_le 4) (show 4 ≤ buf.length by omega), ok_bind, List.drop_zero,
    Nat.sub_zero]
  generalize htotal : ofBE (buf.take 4) = total
  obtain rfl : total = frame.length := by
    rw [← htotal, htake, ofBE_toBE_of_lt (by omega)]
  dsimp only
  have hfits : ¬frame.length > 4 + 8 + 1 + 2 + maxKeyLen + 4 + maxValueLen + 32 := not_lt.mpr hmax
  rw [refuse, if_neg hfits, ok_bind, plus_eq (by omega), ok_bind, refuse,
    if_neg (by omega), ok_bind, sliceRange_eq (Nat.le_add_right 4 frame.length) (by omega), ok_bind,
    Nat.add_sub_cancel_left, hbody]
  refine bind_congr_ok (fun cut hcut ↦ ?_)
  obtain ⟨-, rfl⟩ := minus_eq_ok.mp hcut
  have hsum : (frame.drop (frame.length - 32)).take (frame.length - (frame.length - 32)) =
      frame.drop (frame.length - 32) := by
    rw [← List.length_drop]
    exact List.take_length
  rw [sliceRange_eq (Nat.zero_le _) (Nat.sub_le _ _), ok_bind,
    sliceRange_eq (Nat.sub_le _ _) le_rfl, ok_bind, List.drop_zero, Nat.sub_zero, hsum]

theorem refuse_ne_panic {ε : Type} {p : Prop} [Decidable p] {e : ε} : refuse p e ≠ .panic :=
  ensures_refuse.ne_panic

theorem decodeRecord_panic_iff {buf : List UInt8} :
    decodeRecord digest buf = .panic ↔ Stunted digest buf := by
  constructor
  · intro h
    obtain ⟨frame, rest, hmax, rfl⟩ := frame_of_decodeRecord (by rw [h]; exact fun e ↦ nofun)
    refine ⟨frame, rest, rfl, ?_⟩
    by_cases hcut : frame.length < 32
    · exact .inl hcut
    rw [decodeRecord_frame hmax, minus_eq (not_lt.mp hcut), ok_bind] at h
    obtain ⟨_, hsum, h⟩ := (bind_eq_panic_iff.mp h).resolve_left refuse_ne_panic
    have hpanic := (bind_eq_panic_iff.mp h).resolve_right (by rintro ⟨_, -, ⟨⟩⟩)
    refine .inr ⟨_, ?_, decodeFields_panic_iff.mp hpanic⟩
    rw [not_not.mp (refuse_eq_ok.mp hsum), List.take_append_drop]
  · rintro ⟨frame, rest, rfl, hcut | ⟨fields, rfl, hshort⟩⟩
    · rw [decodeRecord_frame (hcut.le.trans (by decide)), minus, if_neg (not_le.mpr hcut)]
      rfl
    · have hsum := (digest fields).2
      have hlen : (fields ++ (digest fields).1).length = fields.length + 32 := by
        rw [List.length_append, hsum]
      have hle : (fields ++ (digest fields).1).length ≤ 43 := by
        have hfew := hshort.1
        omega
      rw [decodeRecord_frame (hle.trans (by decide)), hlen, minus_eq (Nat.le_add_left 32 _), ok_bind,
        Nat.add_sub_cancel, List.take_left, List.drop_left, refuse, if_neg (not_not.mpr rfl), ok_bind,
        decodeFields_panic_iff.mpr hshort]
      rfl

/-- What is accepted is the encoding of a record that the writer may write. -/
theorem decodeRecord_ok {buf : List UInt8} {r : Record} {used : ℕ}
    (h : decodeRecord digest buf = .ok (r, used)) :
    Valid r ∧ used = (encodeRecord digest r).length ∧ ∃ rest, buf = encodeRecord digest r ++ rest := by
  obtain ⟨frame, rest, hmax, rfl⟩ := frame_of_decodeRecord (by rw [h]; exact fun e ↦ nofun)
  rw [decodeRecord_frame hmax] at h
  simp only [bind_eq_ok, minus_eq_ok, refuse_eq_ok] at h
  obtain ⟨cut, ⟨hcut, rfl⟩, -, hsum, r', hfields, heq⟩ := h
  cases heq
  obtain ⟨hvalid, hbytes⟩ := decodeFields_ok hfields
  have hframe : frame = fieldBytes r ++ (digest (fieldBytes r)).1 := by
    rw [← hbytes, not_not.mp hsum, List.take_append_drop]
  have hencode : encodeRecord digest r = toBE 4 frame.length ++ frame := by
    rw [encodeRecord, ← hframe]
  refine ⟨hvalid, ?_, rest, ?_⟩
  · rw [hencode, List.length_append, length_toBE]
  · rw [hencode, List.append_assoc]

/-- Before anything, a whole encoding is read back, and a piece of one is torn. -/
theorem decodeRecord_validated (digest : List UInt8 → Digest) {seq : BitVec 64} (op : Op)
    {key : String} {value : List UInt8} (hseq : 1 ≤ seq)
    (hvalidate : Model.Journal.validate key value = .ok ()) :
    (∀ suffix, decodeRecord digest (encodeRecord digest ⟨seq, op, key, value⟩ ++ suffix) =
      .ok (⟨seq, op, key, value⟩, (encodeRecord digest ⟨seq, op, key, value⟩).length)) ∧
    ∀ bytes, bytes <+: encodeRecord digest ⟨seq, op, key, value⟩ →
      bytes ≠ encodeRecord digest ⟨seq, op, key, value⟩ →
        decodeRecord digest bytes = .err .torn := by
  have hpos : seq ≠ 0 := by
    rintro rfl
    exact absurd hseq (by decide)
  have hvalid : Valid ⟨seq, op, key, value⟩ := valid_of_validate hpos hvalidate
  constructor
  · intro suffix
    rw [decodeRecord_eq]
    exact decodeRecord_encodeRecord hvalid suffix
  · intro bytes hpre hne
    rw [decodeRecord_eq]
    exact decodeRecord_torn hvalid hpre hne

theorem decodeRecord_validated_delete :
    (∀ suffix, decodeRecord (fun _ ↦ ⟨List.replicate 32 7, rfl⟩)
      (encodeRecord (fun _ ↦ ⟨List.replicate 32 7, rfl⟩) ⟨9, .delete, "k", []⟩ ++ suffix) =
        .ok (⟨9, .delete, "k", []⟩, 48 + 4)) ∧
    ∀ bytes, bytes <+: encodeRecord (fun _ ↦ ⟨List.replicate 32 7, rfl⟩) ⟨9, .delete, "k", []⟩ →
      bytes ≠ encodeRecord (fun _ ↦ ⟨List.replicate 32 7, rfl⟩) ⟨9, .delete, "k", []⟩ →
        decodeRecord (fun _ ↦ ⟨List.replicate 32 7, rfl⟩) bytes = .err .torn :=
  decodeRecord_validated _ .delete (by decide) (by decide)

end Records

section Scan

variable {bytes : List UInt8} {pos : ℕ} {records : List Record}

variable (digest) in
/-- The loop of `read_journal`: each record is read from a slice of the file. -/
def readRecords (bytes : List UInt8) (pos : ℕ) (records : List Record) :
    Outcome PersistError (List Record × Bool × ℕ) :=
  if pos < bytes.length then
    match _h : sliceRange bytes pos bytes.length >>= decodeRecord digest with
    | .ok (r, used) => readRecords bytes (pos + used) (records ++ [r])
    | .err .torn => .ok (records, true, pos)
    | .err .corrupt => .err (.corrupt pos)
    | .panic => .panic
  else .ok (records, false, pos)
termination_by bytes.length - pos
decreasing_by
  obtain ⟨buf, -, hdecode⟩ := bind_eq_ok.mp _h
  have hused := (decodeRecord_ok hdecode).2.1
  rw [length_encodeRecord] at hused
  omega

variable (digest) in
def readJournal (content : Option (List UInt8)) : Outcome PersistError (List Record × Bool × ℕ) :=
  match content with
  | none => .ok ([], false, 0)
  | some bytes => readRecords digest bytes 0 []

theorem sliceRange_end {ε : Type} (h : pos ≤ bytes.length) :
    (sliceRange bytes pos bytes.length : Outcome ε (List UInt8)) = .ok (bytes.drop pos) := by
  rw [sliceRange_eq h le_rfl, ← List.length_drop, List.take_length]

theorem read_eq (h : pos ≤ bytes.length) :
    sliceRange bytes pos bytes.length >>= decodeRecord digest =
      Codec.decodeRecord digest (bytes.drop pos) := by
  rw [sliceRange_end h, ok_bind, decodeRecord_eq]

theorem readRecords_eq (h : pos ≤ bytes.length) :
    readRecords digest bytes pos records =
      Codec.readRecords digest (bytes.drop pos) pos records := by
  fun_induction readRecords digest bytes pos records with
  | case1 pos records hlt r used hread ih =>
    rw [read_eq h] at hread
    have hle : pos + used ≤ bytes.length := by
      obtain ⟨-, hused, rest, hrest⟩ := decodeRecord_ok ((decodeRecord_eq _).trans hread)
      have hlen := congrArg List.length hrest
      rw [List.length_drop, List.length_append, ← hused] at hlen
      omega
    rw [ih hle, readRecords_ok hread, List.drop_drop]
  | case2 pos records hlt hread =>
    rw [read_eq h] at hread
    have hne : bytes.drop pos ≠ [] := by rwa [ne_eq, List.drop_eq_nil_iff, not_le]
    rw [readRecords_torn hne hread]
  | case3 pos records hlt hread =>
    rw [read_eq h] at hread
    have hne : bytes.drop pos ≠ [] := by rwa [ne_eq, List.drop_eq_nil_iff, not_le]
    rw [readRecords_corrupt hne hread]
  | case4 pos records hlt hread =>
    rw [read_eq h] at hread
    have hne : bytes.drop pos ≠ [] := by rwa [ne_eq, List.drop_eq_nil_iff, not_le]
    rw [readRecords_panic hne hread]
  | case5 pos records hlt =>
    rw [List.drop_eq_nil_of_le (not_lt.mp hlt), readRecords_nil]

theorem readJournal_eq (disk : Model.Disk) :
    readJournal digest disk.journal = Model.readJournal digest disk := by
  unfold readJournal Model.readJournal
  cases disk.journal with
  | none => rfl
  | some bytes => exact readRecords_eq (Nat.zero_le _)

def Blocked (digest : List UInt8 → Digest) (bytes : List UInt8) : Prop :=
  ∃ (records : List Record) (tail : List UInt8), (∀ r ∈ records, Valid r) ∧
    bytes = records.flatMap (encodeRecord digest) ++ tail ∧ Stunted digest tail

theorem Stunted.ne_nil {tail : List UInt8} (h : Stunted digest tail) : tail ≠ [] := by
  obtain ⟨frame, rest, rfl, -⟩ := h
  refine List.ne_nil_of_length_pos ?_
  rw [List.length_append, length_toBE]
  omega

theorem readRecords_blocked {tail : List UInt8} (hvalid : ∀ r ∈ records, Valid r)
    (htail : Stunted digest tail) (pos : ℕ) (found : List Record) :
    Codec.readRecords digest (records.flatMap (encodeRecord digest) ++ tail) pos found =
      .panic := by
  induction records generalizing pos found with
  | nil =>
    rw [List.flatMap_nil, List.nil_append]
    refine readRecords_panic htail.ne_nil ?_
    rw [← decodeRecord_eq]
    exact decodeRecord_panic_iff.mpr htail
  | cons r records ih =>
    obtain ⟨hr, hvalid⟩ := List.forall_mem_cons.mp hvalid
    rw [List.flatMap_cons, List.append_assoc, readRecords_ok (decodeRecord_encodeRecord hr _),
      List.drop_left]
    exact ih hvalid _ _

theorem blocked_of_readRecords {found : List Record} (h : pos ≤ bytes.length)
    (hpanic : readRecords digest bytes pos found = .panic) : Blocked digest (bytes.drop pos) := by
  fun_induction readRecords digest bytes pos found with
  | case1 pos records hlt r used hread ih =>
    rw [sliceRange_end h, ok_bind] at hread
    obtain ⟨hr, hused, rest, hrest⟩ := decodeRecord_ok hread
    have hnext : bytes.drop (pos + used) = rest := by
      rw [← List.drop_drop, hrest, hused, List.drop_left]
    have hle : pos + used ≤ bytes.length := by
      have hlen := congrArg List.length hrest
      rw [List.length_drop, List.length_append, ← hused] at hlen
      omega
    obtain ⟨records, tail, hvalid, htail, hstunted⟩ := ih hle hpanic
    refine ⟨r :: records, tail, List.forall_mem_cons.mpr ⟨hr, hvalid⟩, ?_, hstunted⟩
    rw [hrest, List.flatMap_cons, List.append_assoc, ← htail, hnext]
  | case2 | case3 | case5 => cases hpanic
  | case4 pos records hlt hread =>
    rw [sliceRange_end h, ok_bind] at hread
    exact ⟨[], bytes.drop pos, nofun, rfl, decodeRecord_panic_iff.mp hread⟩

theorem readJournal_panic_iff {content : Option (List UInt8)} :
    readJournal digest content = .panic ↔ ∃ bytes ∈ content, Blocked digest bytes := by
  cases content with
  | none => exact iff_of_false nofun (by rintro ⟨_, ⟨⟩, -⟩)
  | some bytes =>
    constructor
    · intro h
      exact ⟨bytes, rfl, blocked_of_readRecords (Nat.zero_le _) h⟩
    · rintro ⟨_, ⟨⟩, records, tail, hvalid, rfl, htail⟩
      exact (readRecords_eq (Nat.zero_le _)).trans (readRecords_blocked hvalid htail 0 [])

/-- Both readers come back, and each turn of the loop takes some of the bytes it has. -/
structure Finishes (digest : List UInt8 → Digest) (journal checkpoint : Option (List UInt8)) :
    Prop where
  scan : readJournal digest journal ≠ .panic
  restore : readCheckpoint digest checkpoint ≠ .panic
  advancing : ∀ bytes ∈ journal, ∀ pos < bytes.length, ∀ r used,
    sliceRange bytes pos bytes.length >>= decodeRecord digest = .ok (r, used) →
      0 < used ∧ pos + used ≤ bytes.length

theorem finishes_iff (digest : List UInt8 → Digest) (journal checkpoint : Option (List UInt8)) :
    Finishes digest journal checkpoint ↔ ∀ bytes ∈ journal, ¬Blocked digest bytes := by
  constructor
  · intro h bytes hbytes hblocked
    exact h.scan (readJournal_panic_iff.mpr ⟨bytes, hbytes, hblocked⟩)
  · intro h
    refine ⟨fun hpanic ↦ ?_, (ensures_readCheckpoint checkpoint).ne_panic, ?_⟩
    · obtain ⟨bytes, hbytes, hblocked⟩ := readJournal_panic_iff.mp hpanic
      exact h bytes hbytes hblocked
    · intro bytes _ pos hpos r used hread
      rw [sliceRange_end hpos.le, ok_bind] at hread
      obtain ⟨-, hused, rest, hrest⟩ := decodeRecord_ok hread
      have hlen := congrArg List.length hrest
      rw [List.length_drop, List.length_append, ← hused] at hlen
      rw [length_encodeRecord] at hused
      omega

/-- Four zero bytes are a whole frame of no bytes, and `total - 32` underflows. -/
theorem blocked_zeros : ¬∃ digest, Finishes digest (some [0, 0, 0, 0]) none := by
  rintro ⟨digest, h⟩
  refine h.scan (readJournal_panic_iff.mpr ⟨_, rfl, [], _, nofun, rfl, [], [], rfl, .inl ?_⟩)
  decide

end Scan

end Aldivine.Persistence.Bounds
