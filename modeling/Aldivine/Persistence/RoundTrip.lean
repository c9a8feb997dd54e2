import Aldivine.Persistence.Model

namespace Aldivine.Persistence.RoundTrip

open Foundation.Machine Foundation.Text Foundation.Wire Codec

structure Valid (r : Record) : Prop where
  seq : r.seq ≠ 0
  key : r.key ≠ ""
  keyLen : (utf8 r.key).length ≤ maxKeyLen
  valueLen : r.value.length ≤ maxValueLen

theorem valid_of_validate {seq : BitVec 64} {op : Op} {key : String} {value : List UInt8}
    (hseq : seq ≠ 0) (h : Model.Journal.validate key value = .ok ()) :
    Valid ⟨seq, op, key, value⟩ := by
  unfold Model.Journal.validate at h
  split at h
  · cases h
  rename_i hkey
  split at h
  · cases h
  rename_i hvalue
  rw [not_or, not_or] at hkey
  exact ⟨hseq, hkey.1, not_lt.mp hkey.2.1, not_lt.mp hvalue⟩

variable {digest : List UInt8 → Digest} {r : Record}

section Fields

theorem run_readOp (op : Op) (c : List UInt8) : (readOp op.tag).run c = .ok (op, c) := by
  cases op <;> rfl

theorem parses_readKey {key : String} (hkey : key ≠ "") (hlen : (utf8 key).length ≤ maxKeyLen) :
    Parses (readKey (utf8 key).length) (utf8 key) key := by
  have hzero : (utf8 key).length ≠ 0 := by
    intro hnil
    exact hkey (utf8_injective (List.length_eq_zero_iff.mp hnil))
  have hfits : ¬((utf8 key).length = 0 ∨ (utf8 key).length > maxKeyLen) := by omega
  simp only [readKey, if_neg hfits]
  intro rest
  rw [run_bind_ok (parses_takeBytes _ rfl rest), ofUtf8_utf8]
  rfl

theorem parses_readValue {value : List UInt8} (hlen : value.length ≤ maxValueLen) :
    Parses (readValue value.length) value value := by
  have hfits : ¬value.length > maxValueLen := by omega
  simp only [readValue, if_neg hfits]
  exact parses_takeBytes _ rfl

theorem parses_readFields (hr : Valid r) : Parses readFields (fieldBytes r) r := by
  have hseq : BitVec.ofNat 64 r.seq.toNat = r.seq := by simp
  have hkey : (utf8 r.key).length < 256 ^ 2 := hr.keyLen.trans_lt (by decide)
  have hvalue : r.value.length < 256 ^ 4 := hr.valueLen.trans_lt (by decide)
  intro rest
  simp only [readFields, fieldBytes, List.append_assoc]
  rw [run_bind_ok (parses_readBE _ (by exact r.seq.isLt) _), hseq]
  simp only [if_neg hr.seq]
  rw [run_bind_ok (parses_readByte _ r.op.tag _), run_bind_ok (run_readOp r.op _),
    run_bind_ok (parses_readBE _ hkey _), run_bind_ok (parses_readKey hr.key hr.keyLen _),
    run_bind_ok (parses_readBE _ hvalue _), run_bind_ok (parses_readValue hr.valueLen _)]
  rfl

theorem length_fieldBytes : (fieldBytes r).length = 15 + (utf8 r.key).length + r.value.length := by
  simp only [fieldBytes, List.length_append, length_toBE, List.length_cons, List.length_nil]
  omega

theorem length_fieldBytes_le (hr : Valid r) :
    (fieldBytes r).length + 32 ≤ 8 + 1 + 2 + maxKeyLen + 4 + maxValueLen + 32 := by
  have hkey := hr.keyLen
  have hvalue := hr.valueLen
  rw [length_fieldBytes]
  omega

end Fields

section Framing

theorem length_encodeRecord (digest : List UInt8 → Digest) :
    (encodeRecord digest r).length = 4 + ((fieldBytes r).length + 32) := by
  simp only [encodeRecord, List.length_append, length_toBE, (digest (fieldBytes r)).2]

theorem ofBE_length (hr : Valid r) :
    ofBE (toBE 4 ((fieldBytes r).length + 32)) = (fieldBytes r).length + 32 := by
  have hle := length_fieldBytes_le hr
  refine ofBE_toBE_of_lt (hle.trans_lt ?_)
  decide

theorem decodeRecord_encodeRecord (hr : Valid r) (rest : List UInt8) :
    decodeRecord digest (encodeRecord digest r ++ rest) =
      .ok (r, (encodeRecord digest r).length) := by
  have hle := length_fieldBytes_le hr
  have hsum := (digest (fieldBytes r)).2
  have hbytes : encodeRecord digest r ++ rest = toBE 4 ((fieldBytes r).length + 32) ++
      (fieldBytes r ++ ((digest (fieldBytes r)).1 ++ rest)) := by
    simp only [encodeRecord, List.length_append, hsum, List.append_assoc]
  have htake : (encodeRecord digest r ++ rest).take 4 = toBE 4 ((fieldBytes r).length + 32) := by
    rw [hbytes]
    exact List.take_left' (length_toBE 4 _)
  have hbody : ((encodeRecord digest r ++ rest).drop 4).take ((fieldBytes r).length + 32) =
      fieldBytes r ++ (digest (fieldBytes r)).1 := by
    rw [hbytes, List.drop_left' (length_toBE 4 _), ← List.append_assoc]
    refine List.take_left' ?_
    rw [List.length_append, hsum]
  have hlen : (encodeRecord digest r ++ rest).length =
      4 + ((fieldBytes r).length + 32) + rest.length := by
    rw [List.length_append, length_encodeRecord]
  have hparse := parses_readFields hr []
  rw [List.append_nil] at hparse
  unfold decodeRecord
  rw [if_neg (by omega)]
  simp only [htake, ofBE_length hr, hbody, Nat.add_sub_cancel, List.take_left, List.drop_left]
  rw [if_neg (by omega), if_neg (by omega), if_neg (by omega), if_neg (not_not.mpr rfl), hparse,
    length_encodeRecord]

/-- A record that is cut short is torn, wherever it is cut. -/
theorem decodeRecord_torn (hr : Valid r) {bytes : List UInt8}
    (hpre : bytes <+: encodeRecord digest r) (hne : bytes ≠ encodeRecord digest r) :
    decodeRecord digest bytes = .err .torn := by
  have hle := length_fieldBytes_le hr
  have hshort : bytes.length < 4 + ((fieldBytes r).length + 32) := by
    rw [← length_encodeRecord digest]
    exact hpre.length_le.lt_of_ne (fun heq ↦ hne (hpre.eq_of_length heq))
  unfold decodeRecord
  by_cases hframe : bytes.length < 4
  · rw [if_pos hframe]
  · -- the length is already there, and promises more than follows
    have htake : bytes.take 4 = toBE 4 ((fieldBytes r).length + 32) := by
      obtain ⟨more, hmore⟩ := hpre
      have hfour : (bytes ++ more).take 4 = bytes.take 4 :=
        List.take_append_of_le_length (by omega)
      rw [← hfour, hmore, encodeRecord]
      simp only [List.length_append, (digest (fieldBytes r)).2]
      exact List.take_left' (length_toBE 4 _)
    rw [if_neg hframe]
    simp only [htake, ofBE_length hr]
    rw [if_neg (by omega), if_pos hshort]

theorem decodeRecord_zeros (rest : List UInt8) :
    decodeRecord digest (0 :: 0 :: 0 :: 0 :: rest) = .panic := by
  have htake : (0 :: 0 :: 0 :: 0 :: rest).take 4 = [0, 0, 0, 0] := rfl
  have hlen : ¬(0 :: 0 :: 0 :: 0 :: rest : List UInt8).length < 4 := by simp
  have hzero : ofBE [0, 0, 0, 0] = 0 := rfl
  unfold decodeRecord
  rw [if_neg hlen]
  simp only [htake, hzero]
  rw [if_neg (by decide), if_neg hlen, if_pos (by decide)]

end Framing

section Scan

variable {bytes tail : List UInt8} {pos used : ℕ} {records found : List Record}

theorem readRecords_nil : readRecords digest [] pos found = .ok (found, false, pos) := by
  rw [readRecords, if_pos rfl]

theorem readRecords_ok (h : decodeRecord digest bytes = .ok (r, used)) :
    readRecords digest bytes pos found =
      readRecords digest (bytes.drop used) (pos + used) (found ++ [r]) := by
  have hne : bytes ≠ [] := by
    rintro rfl
    cases h
  rw [readRecords, if_neg hne]
  split
  · rename_i heq
    cases h.symm.trans heq
    rfl
  all_goals
    rename_i heq
    cases h.symm.trans heq

theorem readRecords_torn (hne : bytes ≠ []) (h : decodeRecord digest bytes = .err .torn) :
    readRecords digest bytes pos found = .ok (found, true, pos) := by
  rw [readRecords, if_neg hne]
  split
  · rename_i heq
    cases h.symm.trans heq
  · rfl
  all_goals
    rename_i heq
    cases h.symm.trans heq

theorem readRecords_corrupt (hne : bytes ≠ []) (h : decodeRecord digest bytes = .err .corrupt) :
    readRecords digest bytes pos found = .err (.corrupt pos) := by
  rw [readRecords, if_neg hne]
  split
  all_goals
    rename_i heq
    first
      | rfl
      | cases h.symm.trans heq

theorem readRecords_panic (hne : bytes ≠ []) (h : decodeRecord digest bytes = .panic) :
    readRecords digest bytes pos found = .panic := by
  rw [readRecords, if_neg hne]
  split
  all_goals
    rename_i heq
    first
      | rfl
      | cases h.symm.trans heq

def Tail (digest : List UInt8 → Digest) (tail : List UInt8) : Prop :=
  tail = [] ∨ ∃ r, Valid r ∧ tail <+: encodeRecord digest r ∧ tail ≠ encodeRecord digest r

/-- The scan finds the whole records and drops what is left of one that was cut short. -/
theorem readRecords_records (pos : ℕ) (found : List Record) (hvalid : ∀ r ∈ records, Valid r)
    (htail : Tail digest tail) :
    readRecords digest (records.flatMap (encodeRecord digest) ++ tail) pos found =
      .ok (found ++ records, !tail.isEmpty,
        pos + (records.flatMap (encodeRecord digest)).length) := by
  induction records generalizing pos found with
  | nil =>
    rw [List.flatMap_nil, List.nil_append, List.append_nil]
    by_cases hne : tail = []
    · subst hne
      rw [readRecords_nil]
      rfl
    · obtain ⟨r, hr, hpre, hcut⟩ := htail.resolve_left hne
      rw [readRecords_torn hne (decodeRecord_torn hr hpre hcut), List.isEmpty_eq_false_iff.mpr hne]
      rfl
  | cons r records ih =>
    obtain ⟨hr, hvalid⟩ := List.forall_mem_cons.mp hvalid
    rw [List.flatMap_cons, List.append_assoc,
      readRecords_ok (decodeRecord_encodeRecord hr _), List.drop_left, ih _ _ hvalid,
      List.append_assoc, List.length_append, Nat.add_assoc]
    rfl

end Scan

theorem readCheckpoint_encodeCheckpoint {seq : BitVec 64} {payload : List UInt8}
    (hlen : payload.length ≤ maxPayloadLen) :
    readCheckpoint digest (some (encodeCheckpoint digest seq payload)) =
      .ok (some (seq, payload)) := by
  generalize hbytes : encodeCheckpoint digest seq payload = bytes
  generalize hbody : checkpointMagic ++ (toBE 8 seq.toNat ++ (toBE 8 payload.length ++ payload)) =
    body
  have hsplit : bytes = body ++ (digest body).1 := by
    rw [← hbytes, ← hbody]
    rfl
  have hbodyLen : body.length = 24 + payload.length := by
    rw [← hbody]
    simp only [List.length_append, length_toBE, checkpointMagic, List.length_cons, List.length_nil]
    omega
  have hbytesLen : bytes.length = 24 + payload.length + 32 := by
    rw [hsplit, List.length_append, hbodyLen, (digest body).2]
  have hflat : bytes = checkpointMagic ++ (toBE 8 seq.toNat ++ (toBE 8 payload.length ++
      (payload ++ (digest body).1))) := by
    rw [hsplit]
    nth_rewrite 1 [← hbody]
    simp only [List.append_assoc]
  -- the fields, each behind those before it
  have hmagic : bytes.take 8 = checkpointMagic := by
    rw [hflat]
    exact List.take_left' rfl
  have hseq : (bytes.drop 8).take 8 = toBE 8 seq.toNat := by
    rw [hflat]
    exact slice_middle rfl (length_toBE 8 _)
  have hcount : (bytes.drop 16).take 8 = toBE 8 payload.length := by
    rw [hflat, ← List.append_assoc checkpointMagic]
    refine slice_middle ?_ (length_toBE 8 _)
    rw [List.length_append, length_toBE]
    rfl
  have hpayload : (bytes.drop 24).take payload.length = payload := by
    rw [hflat, ← List.append_assoc checkpointMagic, ← List.append_assoc (checkpointMagic ++ _)]
    refine slice_middle ?_ rfl
    rw [List.length_append, List.length_append, length_toBE, length_toBE]
    rfl
  have hsmall : payload.length < 256 ^ 8 := hlen.trans_lt (by decide)
  have hword : BitVec.ofNat 64 (ofBE (toBE 8 seq.toNat)) = seq := by
    rw [ofBE_toBE_of_lt (by exact seq.isLt)]
    simp
  unfold readCheckpoint
  simp only [hmagic, hseq, hcount, hword, ofBE_toBE_of_lt hsmall, hpayload, hbytesLen]
  rw [if_neg (by omega), if_neg (not_not.mpr rfl), if_neg (by omega), if_neg (lt_irrefl _),
    if_neg (lt_irrefl _), Nat.add_sub_cancel, hsplit, List.take_left' hbodyLen,
    List.drop_left' hbodyLen, if_neg (not_not.mpr rfl)]

end Aldivine.Persistence.RoundTrip
