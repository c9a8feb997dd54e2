import Aldivine.Serialization.Pack
import Aldivine.Serialization.Unpack
import Mathlib.Tactic.IntervalCases

namespace Aldivine.Serialization.RoundTrip

open Foundation.Text Foundation.Wire Core.Error Value Value.CfxValue Pack Unpack

def vectorFamily (tag : BitVec 8) (n : ℕ) : Bool :=
  (tag = Ext.vector2 ∧ n = 8) ∨ (tag = Ext.vector3 ∧ n = 12) ∨ (tag = Ext.vector4 ∧ n = 16) ∨
    (tag = Ext.quaternion ∧ n = 16)

/-- Lengths fit their field, and an opaque payload does not look like a vector. -/
def fits : CfxValue → Bool
  | .str s => (utf8 s).length < 2 ^ 32
  | .bin b => b.length < 2 ^ 32
  | .array items => items.length < 2 ^ 32
  | .map entries => entries.length < 2 ^ 32
  | .ext tag data => data.length < 2 ^ 32 && !vectorFamily tag data.length
  | _ => true

def widthKept : CfxValue → Bool
  | .int n => n.toInt < 256 ∨ 0xFFFFFFFF < n.toInt
  | _ => true

theorem parses_tagged {tag : UInt8} {bytes : List UInt8} {v : CfxValue}
    (h : Parses (readTagged readValue tag) bytes v) : Parses readValue (tag :: bytes) v := by
  intro rest
  rw [List.cons_append, readValue_cons]
  exact h rest

theorem reads_tagged {good : Prop} {tag : UInt8} {bytes : List UInt8} {v : CfxValue}
    (h : Reads good (readTagged readValue tag) bytes v) :
    Reads good readValue (tag :: bytes) v := by
  refine ⟨fun hgood ↦ parses_tagged (h.1 hgood), fun hbad rest rest' ↦ ?_⟩
  rw [List.cons_append, readValue_cons]
  exact h.2 hbad rest rest'

section Fields

variable {bytes : List UInt8} {v : CfxValue} {f : ℕ → Cursor CfxValue} {n : ℕ} {good : Prop}

theorem parses_readWord {w k : ℕ} (hw : 256 ^ k = 2 ^ w) (n : ℕ) :
    Parses (readWord w k) (toBE k n) (BitVec.ofNat w n) := by
  have hread := (parses_takeBytes (AldError.protocol "msgpack field overruns buffer")
    (length_toBE k n)).map (fun bytes ↦ BitVec.ofNat w (ofBE bytes))
  have hmod : BitVec.ofNat w (ofBE (toBE k n)) = BitVec.ofNat w n := by
    apply BitVec.eq_of_toNat_eq
    rw [ofBE_toBE, hw, BitVec.toNat_ofNat, BitVec.toNat_ofNat, Nat.mod_mod]
  rwa [hmod] at hread

theorem parses_word_toNat {w k : ℕ} (hw : 256 ^ k = 2 ^ w) (x : BitVec w) :
    Parses (readWord w k) (toBE k x.toNat) x := by
  have hread := parses_readWord hw x.toNat
  rwa [BitVec.ofNat_toNat, BitVec.setWidth_eq] at hread

theorem reads_u8_length (hn : n ≤ 0xFF) (h : Reads good (f n) bytes v) :
    Reads good (do f (← readU8).toNat) (UInt8.ofNat n :: bytes) v := by
  have hbyte : (UInt8.ofNat n).toNat = n :=
    UInt8.toNat_ofNat_of_lt' (Nat.lt_succ_of_le hn)
  refine (parses_readByte _ (UInt8.ofNat n)).bind_reads ?_
  rwa [hbyte]

theorem reads_u16_length (hn : n ≤ 0xFFFF) (h : Reads good (f n) bytes v) :
    Reads good (do f (← readU16).toNat) (toBE 2 n ++ bytes) v := by
  have hword : (BitVec.ofNat 16 n).toNat = n :=
    (BitVec.toNat_ofNat n 16).trans (Nat.mod_eq_of_lt (by omega))
  refine (parses_readWord (by norm_num) n).bind_reads ?_
  rwa [hword]

theorem reads_u32_length (hn : n < 2 ^ 32) (h : Reads good (f n) bytes v) :
    Reads good (do f (← readU32).toNat) (toBE 4 n ++ bytes) v := by
  have hword : (BitVec.ofNat 32 n).toNat = n :=
    (BitVec.toNat_ofNat n 32).trans (Nat.mod_eq_of_lt hn)
  refine (parses_readWord (by norm_num) n).bind_reads ?_
  rwa [hword]

end Fields

section Int

theorem readTagged_fixint (read : Cursor CfxValue) {k : ℕ} (hk : k < 128) :
    readTagged read (UInt8.ofNat k) = return .int (BitVec.ofNat 64 k) := by
  interval_cases k <;> rfl

theorem readTagged_negative_fixint (read : Cursor CfxValue) {k : ℕ} (hlo : 224 ≤ k) (hhi : k < 256) :
    readTagged read (UInt8.ofNat k) = return .int ((BitVec.ofNat 8 k).signExtend 64) := by
  interval_cases k <;> rfl

theorem signExtend_ofNat {w : ℕ} (hw : w + 1 ≤ 64) (n : BitVec 64) (hlo : -2 ^ w ≤ n.toInt)
    (hhi : n.toInt < 2 ^ w) : (BitVec.ofNat (w + 1) n.toNat).signExtend 64 = n := by
  apply BitVec.eq_of_toInt_eq
  have hdvd : 2 ^ (w + 1) ∣ 2 ^ 64 := pow_dvd_pow 2 hw
  have hlow : Int.bmod n.toNat (2 ^ (w + 1)) = Int.bmod n.toInt (2 ^ (w + 1)) := by
    rw [BitVec.toInt_eq_toNat_bmod, Int.bmod_bmod_of_dvd hdvd]
  have hcast : ((2 ^ (w + 1) : ℕ) : ℤ) = 2 ^ w * 2 := by
    rw [Nat.cast_pow, pow_succ]
    rfl
  rw [BitVec.ofNat_toNat, BitVec.toInt_signExtend_of_le hw, BitVec.toInt_setWidth, hlow]
  apply Int.bmod_eq_of_le_mul_two <;> rw [hcast] <;> omega

theorem toNat_of_nonneg {n : BitVec 64} (h : 0 ≤ n.toInt) : (n.toNat : ℤ) = n.toInt := by
  rw [BitVec.toInt_eq_toNat_cond] at h ⊢
  split at h <;> rename_i hlt
  · rw [if_pos hlt]
  · have := n.isLt
    omega

theorem toNat_of_neg {n : BitVec 64} (h : n.toInt < 0) : (n.toNat : ℤ) = n.toInt + 2 ^ 64 := by
  rw [BitVec.toInt_eq_toNat_cond] at h ⊢
  split at h <;> rename_i hlt
  · omega
  · rw [if_neg hlt]
    omega

theorem parses_extended_word {tag : UInt8} {w k : ℕ} {f : BitVec w → BitVec 64}
    (hread : readTagged readValue tag = do return .int (f (← readWord w k)))
    (hw : 256 ^ k = 2 ^ w) (n : ℕ) :
    Parses readValue (tag :: toBE k n) (.int (f (BitVec.ofNat w n))) := by
  apply parses_tagged
  rw [hread]
  exact (parses_readWord hw n).map (fun x ↦ CfxValue.int (f x))

theorem parses_extended_byte {tag : UInt8} {f : BitVec 8 → BitVec 64}
    (hread : readTagged readValue tag = do return .int (f (← readU8).toBitVec)) (b : UInt8) :
    Parses readValue [tag, b] (.int (f b.toBitVec)) := by
  apply parses_tagged
  rw [hread]
  exact (parses_readByte _ b).map (fun b ↦ CfxValue.int (f b.toBitVec))

theorem parses_int_word {tag : UInt8} {w k : ℕ} {f : BitVec w → BitVec 64} {n : BitVec 64}
    (hread : readTagged readValue tag = do return .int (f (← readWord w k)))
    (hw : 256 ^ k = 2 ^ w) (hf : f (BitVec.ofNat w n.toNat) = n) :
    Parses readValue (tag :: toBE k n.toNat) (.int n) := by
  have hword := parses_extended_word hread hw n.toNat
  rwa [hf] at hword

theorem parses_int_byte {tag : UInt8} {f : BitVec 8 → BitVec 64} {n : BitVec 64}
    (hread : readTagged readValue tag = do return .int (f (← readU8).toBitVec))
    (hf : f (BitVec.ofNat 8 n.toNat) = n) :
    Parses readValue [tag, UInt8.ofNat n.toNat] (.int n) := by
  have hbyte := parses_extended_byte hread (UInt8.ofNat n.toNat)
  rwa [UInt8.toBitVec_ofNat', hf] at hbyte

theorem parses_negative_fixint {n : BitVec 64} (hlo : -32 ≤ n.toInt) (hhi : n.toInt < 0) :
    Parses readValue [UInt8.ofNat n.toNat] (.int n) := by
  have hneg := toNat_of_neg hhi
  have hbyte : UInt8.ofNat n.toNat = UInt8.ofNat (n.toNat % 256) := UInt8.ofNat_mod_size.symm
  have hword : BitVec.ofNat 8 (n.toNat % 256) = BitVec.ofNat 8 n.toNat := by
    apply BitVec.eq_of_toNat_eq
    rw [BitVec.toNat_ofNat, BitVec.toNat_ofNat, Nat.mod_mod]
  rw [hbyte]
  apply parses_tagged
  rw [readTagged_negative_fixint _ (by omega) (by omega), hword,
    signExtend_ofNat (w := 7) (by omega) n (by omega) (by omega)]
  exact parses_pure _

theorem parses_writeInt {n : BitVec 64} (h : n.toInt < 256 ∨ 0xFFFFFFFF < n.toInt) :
    Parses readValue (writeInt n) (.int n) := by
  have hself : BitVec.ofNat 64 n.toNat = n := by rw [BitVec.ofNat_toNat, BitVec.setWidth_eq]
  have hpos := fun h0 ↦ toNat_of_nonneg (n := n) h0
  simp only [writeInt]
  split_ifs
  · apply parses_tagged
    rw [readTagged_fixint _ (by omega), hself]
    exact parses_pure _
  · refine parses_int_byte (f := (·.setWidth 64)) rfl ?_
    apply BitVec.eq_of_toNat_eq
    simp only [BitVec.toNat_setWidth, BitVec.toNat_ofNat]
    omega
  · omega
  · omega
  · exact parses_int_word (f := id) rfl (by norm_num) hself
  · exact parses_negative_fixint (by omega) (by omega)
  · exact parses_int_byte (f := (·.signExtend 64)) rfl
      (signExtend_ofNat (w := 7) (by omega) n (by omega) (by omega))
  · exact parses_int_word (f := (·.signExtend 64)) rfl (by norm_num)
      (signExtend_ofNat (w := 15) (by omega) n (by omega) (by omega))
  · exact parses_int_word (f := (·.signExtend 64)) rfl (by norm_num)
      (signExtend_ofNat (w := 31) (by omega) n (by omega) (by omega))
  · exact parses_int_word (f := id) rfl (by norm_num) hself

/-- The reader stops inside the leading zeros of the eight-byte word. -/
theorem misses_truncated {tag : UInt8} {w k j : ℕ} {f : BitVec w → BitVec 64} {n : BitVec 64}
    (hread : readTagged readValue tag = do return .int (f (← readWord w k)))
    (hw : 256 ^ k = 2 ^ w) (hk : k + j = 8) (hlow : n.toNat < 256 ^ j) (hf : f 0 = 0)
    (hn : n ≠ 0) : Misses readValue (tag :: toBE 8 n.toNat) (.int n) := by
  intro rest rest' heq
  have hzero := parses_readWord hw 0
  rw [List.cons_append, readValue_cons, hread, ← hk, toBE_add, Nat.div_eq_of_lt hlow,
    List.append_assoc, run_bind_ok (hzero _)] at heq
  have hint : CfxValue.int (f 0) = .int n := congrArg Prod.fst (Except.ok.inj heq)
  exact hn (CfxValue.int.inj (hf ▸ hint)).symm

theorem misses_writeInt {n : BitVec 64} (hlo : 256 ≤ n.toInt) (hhi : n.toInt ≤ 0xFFFFFFFF) :
    Misses readValue (writeInt n) (.int n) := by
  have hpos := toNat_of_nonneg (n := n) (by omega)
  have hn : n ≠ 0 := by
    intro heq
    subst heq
    simp at hlo
  simp only [writeInt]
  split_ifs
  · omega
  · omega
  · exact misses_truncated (f := (·.setWidth 64)) (j := 6) rfl (by norm_num) rfl (by omega) rfl hn
  · exact misses_truncated (f := (·.setWidth 64)) (j := 4) rfl (by norm_num) rfl (by omega) rfl hn
  · omega
  all_goals omega

end Int

section Payloads

theorem parses_readBin (b : List UInt8) : Parses (readBin b.length) b (.bin b) :=
  (parses_takeBytes _ rfl).map CfxValue.bin

theorem parses_readStr (s : String) : Parses (readStr (utf8 s).length) (utf8 s) (.str s) := by
  have hread : Parses (readStr (utf8 s).length) (utf8 s ++ []) (.str s) := by
    refine (parses_takeBytes _ rfl).bind ?_
    rw [ofUtf8_utf8]
    exact parses_pure _
  rwa [List.append_nil] at hread

theorem parses_readExt {tag : BitVec 8} {data : List UInt8}
    (h : vectorFamily tag data.length = false) :
    Parses (readExt data.length) (UInt8.ofBitVec tag :: data) (.ext tag data) := by
  simp only [vectorFamily, decide_eq_false_iff_not, not_or] at h
  obtain ⟨h2, h3, h4, hq⟩ := h
  refine (parses_readByte _ (UInt8.ofBitVec tag)).bind ?_
  simp only [if_neg h2, if_neg h3, if_neg h4, if_neg hq]
  exact (parses_takeBytes _ rfl).map (CfxValue.ext tag)

theorem parses_of_reads {bytes : List UInt8} {v : CfxValue} {r : Cursor CfxValue}
    (h : Reads True r bytes v) : Parses r bytes v := h.1 trivial

theorem readTagged_fixstr (read : Cursor CfxValue) {k : ℕ} (hk : k < 32) :
    readTagged read (0xA0 ||| UInt8.ofNat k) = readStr k := by
  interval_cases k <;> rfl

theorem readTagged_fixarray (read : Cursor CfxValue) {k : ℕ} (hk : k < 16) :
    readTagged read (0x90 ||| UInt8.ofNat k) = readArray read k := by
  interval_cases k <;> rfl

theorem readTagged_fixmap (read : Cursor CfxValue) {k : ℕ} (hk : k < 16) :
    readTagged read (0x80 ||| UInt8.ofNat k) = readMap read k := by
  interval_cases k <;> rfl

theorem parses_writeStr {s : String} (h : (utf8 s).length < 2 ^ 32) :
    Parses readValue (writeStr s) (.str s) := by
  have hread := (parses_readStr s).reads trivial
  apply parses_of_reads
  simp only [writeStr]
  split_ifs
  · apply reads_tagged
    rw [readTagged_fixstr _ (by omega)]
    exact hread
  · exact reads_tagged (reads_u8_length (f := readStr) (by omega) hread)
  · exact reads_tagged (reads_u16_length (f := readStr) (by omega) hread)
  · exact reads_tagged (reads_u32_length (f := readStr) h hread)

theorem parses_writeBin {b : List UInt8} (h : b.length < 2 ^ 32) :
    Parses readValue (writeBin b) (.bin b) := by
  have hread := (parses_readBin b).reads trivial
  apply parses_of_reads
  simp only [writeBin]
  split_ifs
  · exact reads_tagged (reads_u8_length (f := readBin) (by omega) hread)
  · exact reads_tagged (reads_u16_length (f := readBin) (by omega) hread)
  · exact reads_tagged (reads_u32_length (f := readBin) h hread)

theorem reads_arrayHeader {good : Prop} {n : ℕ} {bytes : List UInt8} {v : CfxValue}
    (hn : n < 2 ^ 32) (h : Reads good (readArray readValue n) bytes v) :
    Reads good readValue (arrayHeader n ++ bytes) v := by
  simp only [arrayHeader]
  split_ifs
  · apply reads_tagged
    rw [readTagged_fixarray _ (by omega)]
    exact h
  · exact reads_tagged (reads_u16_length (f := readArray readValue) (by omega) h)
  · exact reads_tagged (reads_u32_length (f := readArray readValue) hn h)

theorem reads_mapHeader {good : Prop} {n : ℕ} {bytes : List UInt8} {v : CfxValue}
    (hn : n < 2 ^ 32) (h : Reads good (readMap readValue n) bytes v) :
    Reads good readValue (mapHeader n ++ bytes) v := by
  simp only [mapHeader]
  split_ifs
  · apply reads_tagged
    rw [readTagged_fixmap _ (by omega)]
    exact h
  · exact reads_tagged (reads_u16_length (f := readMap readValue) (by omega) h)
  · exact reads_tagged (reads_u32_length (f := readMap readValue) hn h)

theorem parses_extHeader {n : ℕ} (hn : n < 2 ^ 32) {bytes : List UInt8} {v : CfxValue}
    (h : Parses (readExt n) bytes v) :
    ∃ header, extHeader n = .ok header ∧ Parses readValue (header ++ bytes) v := by
  have hread := h.reads trivial
  unfold extHeader
  split
  case h_6 =>
    split_ifs
    · exact ⟨_, rfl, parses_of_reads
        (reads_tagged (reads_u8_length (f := readExt) (by omega) hread))⟩
    · exact ⟨_, rfl, parses_of_reads
        (reads_tagged (reads_u16_length (f := readExt) (by omega) hread))⟩
    · exact ⟨_, rfl, parses_of_reads (reads_tagged (reads_u32_length (f := readExt) hn hread))⟩
    · omega
  all_goals exact ⟨_, rfl, parses_tagged h⟩

theorem parses_writeVector {tag : BitVec 8} {comps : List (BitVec 32)} {v : CfxValue}
    (hlen : comps.length * 4 ≤ 0xFF)
    (h : Parses (readExt (comps.length * 4))
      (UInt8.ofBitVec tag :: (comps.map (fun c ↦ toBE 4 c.toNat)).flatten) v) :
    Parses readValue (writeVector tag comps) v := by
  simp only [writeVector, if_pos hlen]
  exact parses_of_reads
    (reads_tagged (reads_u8_length (f := readExt) hlen (h.reads trivial)))

theorem parses_float {f : BitVec 32 → Cursor CfxValue} {bytes : List UInt8} {v : CfxValue}
    (x : BitVec 32) (h : Parses (f x) bytes v) :
    Parses (readF32 >>= f) (toBE 4 x.toNat ++ bytes) v :=
  (parses_word_toNat (by norm_num) x).bind h

theorem parses_vector2 (x y : BitVec 32) :
    Parses readValue (writeVector Ext.vector2 [x, y]) (.vector2 x y) := by
  apply parses_writeVector (by simp)
  exact (parses_readByte _ (UInt8.ofBitVec Ext.vector2)).bind
    (parses_float x (parses_float y (parses_pure _)))

theorem parses_vector3 (x y z : BitVec 32) :
    Parses readValue (writeVector Ext.vector3 [x, y, z]) (.vector3 x y z) := by
  apply parses_writeVector (by simp)
  exact (parses_readByte _ (UInt8.ofBitVec Ext.vector3)).bind
    (parses_float x (parses_float y (parses_float z (parses_pure _))))

theorem parses_vector4 (x y z w : BitVec 32) :
    Parses readValue (writeVector Ext.vector4 [x, y, z, w]) (.vector4 x y z w) := by
  apply parses_writeVector (by simp)
  exact (parses_readByte _ (UInt8.ofBitVec Ext.vector4)).bind
    (parses_float x (parses_float y (parses_float z (parses_float w (parses_pure _)))))

theorem parses_quat (x y z w : BitVec 32) :
    Parses readValue (writeVector Ext.quaternion [x, y, z, w]) (.quat x y z w) := by
  apply parses_writeVector (by simp)
  exact (parses_readByte _ (UInt8.ofBitVec Ext.quaternion)).bind
    (parses_float x (parses_float y (parses_float z (parses_float w (parses_pure _)))))

end Payloads

/-- Packing succeeds, and the reader takes the bytes for `v` exactly when every nested integer
kept its width. -/
def Packs (v : CfxValue) : Prop :=
  ∃ b, writeValue v = .ok b ∧ Reads (v.all widthKept = true) readValue b v

theorem packs_leaf {v : CfxValue} {b : List UInt8} (hw : writeValue v = .ok b)
    (hkept : v.all widthKept = true) (h : Parses readValue b v) : Packs v :=
  ⟨b, hw, h.reads hkept⟩

theorem packs_int (n : BitVec 64) : Packs (.int n) := by
  refine ⟨writeInt n, rfl, fun hkept ↦ ?_, fun hbad ↦ ?_⟩
  · apply parses_writeInt
    simpa [CfxValue.all, widthKept] using hkept
  · have hrange : 256 ≤ n.toInt ∧ n.toInt ≤ 0xFFFFFFFF := by
      simpa [CfxValue.all, widthKept] using hbad
    exact misses_writeInt hrange.1 hrange.2

theorem packs_items {items : List CfxValue} (h : ∀ v ∈ items, Packs v) :
    ∃ b, writeItems items = .ok b ∧
      Reads (∀ v ∈ items, v.all widthKept = true) (repeatRead readValue items.length) b items := by
  induction items with
  | nil => exact ⟨[], rfl, fun _ ↦ parses_pure [], fun hbad ↦ absurd (by simp) hbad⟩
  | cons v vs ih =>
    obtain ⟨hv, hvs⟩ := List.forall_mem_cons.mp h
    obtain ⟨b, hb, hread⟩ := hv
    obtain ⟨bs, hbs, hreads⟩ := ih hvs
    refine ⟨b ++ bs, by rw [writeItems, hb, hbs]; rfl, ?_⟩
    exact (hread.cons hreads).congr List.forall_mem_cons

theorem packs_entries {entries : List (CfxValue × CfxValue)}
    (h : ∀ e ∈ entries, Packs e.1 ∧ Packs e.2) :
    ∃ b, writeEntries entries = .ok b ∧
      Reads (∀ e ∈ entries, e.1.all widthKept = true ∧ e.2.all widthKept = true)
        (repeatRead (readEntry readValue) entries.length) b entries := by
  induction entries with
  | nil => exact ⟨[], rfl, fun _ ↦ parses_pure [], fun hbad ↦ absurd (by simp) hbad⟩
  | cons e es ih =>
    obtain ⟨k, v⟩ := e
    obtain ⟨⟨hk, hv⟩, hes⟩ := List.forall_mem_cons.mp h
    obtain ⟨bk, hbk, hkey⟩ := hk
    obtain ⟨bv, hbv, hvalue⟩ := hv
    obtain ⟨bs, hbs, hreads⟩ := ih hes
    refine ⟨(bk ++ bv) ++ bs, by simp only [writeEntries, hbk, hbv, hbs]; rfl, ?_⟩
    have hentry : Reads _ (readEntry readValue) (bk ++ bv) (k, v) := hkey.pair hvalue
    exact (hentry.cons hreads).congr List.forall_mem_cons

theorem packs_array {items : List CfxValue} (hlen : items.length < 2 ^ 32)
    (h : ∀ v ∈ items, Packs v) : Packs (.array items) := by
  obtain ⟨b, hb, hread⟩ := packs_items h
  refine ⟨arrayHeader items.length ++ b, by rw [writeValue, hb]; rfl, ?_⟩
  have hall : (CfxValue.array items).all widthKept = true ↔ ∀ v ∈ items, v.all widthKept = true :=
    all_array.trans (and_iff_right rfl)
  exact (reads_arrayHeader hlen (hread.map (fun _ _ ↦ CfxValue.array.inj))).congr hall

theorem packs_map {entries : List (CfxValue × CfxValue)} (hlen : entries.length < 2 ^ 32)
    (h : ∀ e ∈ entries, Packs e.1 ∧ Packs e.2) : Packs (.map entries) := by
  obtain ⟨b, hb, hread⟩ := packs_entries h
  refine ⟨mapHeader entries.length ++ b, by rw [writeValue, hb]; rfl, ?_⟩
  have hall : (CfxValue.map entries).all widthKept = true ↔
      ∀ e ∈ entries, e.1.all widthKept = true ∧ e.2.all widthKept = true :=
    all_map.trans (and_iff_right rfl)
  exact (reads_mapHeader hlen (hread.map (fun _ _ ↦ CfxValue.map.inj))).congr hall

theorem packs (v : CfxValue) (h : v.all fits = true) : Packs v := by
  induction v using CfxValue.induct with
  | array items ih =>
    obtain ⟨hlen, hitems⟩ := all_array.mp h
    exact packs_array (by simpa [fits] using hlen) (fun v hv ↦ ih v hv (hitems v hv))
  | map entries ih =>
    obtain ⟨hlen, hentries⟩ := all_map.mp h
    refine packs_map (by simpa [fits] using hlen) (fun e he ↦ ?_)
    exact ⟨(ih e he).1 (hentries e he).1, (ih e he).2 (hentries e he).2⟩
  | leaf v harray hmap =>
    cases v with
    | nil => exact packs_leaf rfl rfl (parses_tagged (parses_pure _))
    | bool b => cases b <;> exact packs_leaf rfl rfl (parses_tagged (parses_pure _))
    | int n => exact packs_int n
    | float bits =>
      refine packs_leaf rfl rfl (parses_tagged ?_)
      exact (parses_word_toNat (by norm_num) bits).map CfxValue.float
    | str s => exact packs_leaf rfl rfl (parses_writeStr (by simpa [CfxValue.all, fits] using h))
    | bin b => exact packs_leaf rfl rfl (parses_writeBin (by simpa [CfxValue.all, fits] using h))
    | array items => exact absurd rfl (harray items)
    | map entries => exact absurd rfl (hmap entries)
    | vector2 x y => exact packs_leaf rfl rfl (parses_vector2 x y)
    | vector3 x y z => exact packs_leaf rfl rfl (parses_vector3 x y z)
    | vector4 x y z w => exact packs_leaf rfl rfl (parses_vector4 x y z w)
    | quat x y z w => exact packs_leaf rfl rfl (parses_quat x y z w)
    | ext tag data =>
      simp only [CfxValue.all, fits, Bool.and_eq_true, decide_eq_true_eq, Bool.not_eq_true'] at h
      obtain ⟨header, hheader, hread⟩ := parses_extHeader h.1 (parses_readExt h.2)
      exact packs_leaf (by rw [writeValue, writeExt, hheader]; rfl) rfl hread

theorem unpack_of_run {bytes rest : List UInt8} {v : CfxValue}
    (h : readValue.run bytes = .ok (v, rest)) : unpack bytes = .ok v := by
  rw [unpack, h]
  rfl

/-- A value comes back from its own bytes, whatever follows them, exactly when it holds no integer
between 256 and `u32::MAX`. -/
theorem round_trip_iff (v : CfxValue) (h : v.all fits = true) :
    (∃ b, pack v = .ok b ∧ (∀ s, readValue.run (b ++ s) = .ok (v, s)) ∧ unpack b = .ok v) ↔
      v.all widthKept = true := by
  obtain ⟨b, hb, hread⟩ := packs v h
  constructor
  · intro hparts
    obtain ⟨b', hb', hparse, -⟩ := hparts
    obtain rfl := Except.ok.inj (hb.symm.trans hb')
    by_contra hbad
    exact hread.2 hbad [] [] (hparse [])
  · intro hkept
    have hparse := hread.1 hkept
    refine ⟨b, hb, hparse, ?_⟩
    have hrun := hparse []
    rw [List.append_nil] at hrun
    exact unpack_of_run hrun

theorem nested_round_trip :
    (CfxValue.map [(.str "hp", .array [.int 200, .int (-300), .vector2 0 1])]).all fits = true ∧
    ∃ b, pack (.map [(.str "hp", .array [.int 200, .int (-300), .vector2 0 1])]) = .ok b ∧
      (∀ s, readValue.run (b ++ s) =
        .ok (.map [(.str "hp", .array [.int 200, .int (-300), .vector2 0 1])], s)) ∧
      unpack b = .ok (.map [(.str "hp", .array [.int 200, .int (-300), .vector2 0 1])]) := by
  have hfits : (CfxValue.map [(.str "hp", .array [.int 200, .int (-300), .vector2 0 1])]).all
      fits = true := by decide
  exact ⟨hfits, (round_trip_iff _ hfits).mpr (by decide)⟩

/-- 256 is written with eight bytes behind the 16-bit tag and read back as zero. -/
theorem int256_not_restored :
    (CfxValue.int 256).all fits = true ∧ pack (.int 256) = .ok [0xCD, 0, 0, 0, 0, 0, 0, 1, 0] ∧
      unpack [0xCD, 0, 0, 0, 0, 0, 0, 1, 0] = .ok (.int 0) ∧ CfxValue.int 0 ≠ .int 256 :=
  ⟨rfl, rfl, rfl, fun h ↦ absurd (CfxValue.int.inj h) (by decide)⟩

end Aldivine.Serialization.RoundTrip
