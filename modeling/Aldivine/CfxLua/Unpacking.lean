import Aldivine.CfxLua.RoundTrip
import Aldivine.Serialization.RoundTrip

namespace Aldivine.CfxLua.Unpacking

open Foundation.Text Foundation.Wire Bridge Serialization Serialization.Value Serialization.Unpack
open Serialization.RoundTrip (parses_tagged reads_tagged parses_extended_word parses_extended_byte)
open RoundTrip (toNat_lowByte lowBytes_eq signed_lowByte signed_range)

mutual

/-- The value that stands for a JSON value: maps keep the order of the keys. -/
def ofJson : Json → CfxValue
  | .null => .nil
  | .bool b => .bool b
  | .number (.int n) => .int (.ofInt 64 n)
  | .number (.float bits) => .float bits
  | .string s => .str s
  | .array items => .array (ofItems items)
  | .object entries => .map (ofEntries entries)

def ofItems : List Json → List CfxValue
  | [] => []
  | x :: items => ofJson x :: ofItems items

def ofEntries : List (String × Json) → List (CfxValue × CfxValue)
  | [] => []
  | (k, x) :: entries => (.str k, ofJson x) :: ofEntries entries

end

def inRange : Json → Prop
  | .number (.int n) => -2 ^ 63 ≤ n ∧ n < 2 ^ 63
  | _ => True

/-- The integers whose bytes are all written, and the lengths that fit 16 bits. -/
def whole : Json → Prop
  | .number (.int n) => -128 ≤ n ∧ n ≤ 0xffff
  | .string s => (utf8 s).length ≤ 0xffff
  | .array items => items.length ≤ 0xffff
  | .object entries => entries.length ≤ 0xffff
  | _ => True

section Int

def written (i : ℤ) : ℤ := if 0 ≤ i then i % 2 ^ 16 else signed 8 (lowByte i).toNat

theorem written_range (i : ℤ) : -2 ^ 63 ≤ written i ∧ written i < 2 ^ 63 := by
  have hrange : -2 ^ 7 ≤ signed 8 (lowByte i).toNat ∧ signed 8 (lowByte i).toNat < 2 ^ 7 :=
    signed_range 7 _
  unfold written
  split_ifs <;> omega

theorem written_eq_iff {i : ℤ} : written i = i ↔ -128 ≤ i ∧ i ≤ 0xffff := by
  unfold written
  split_ifs
  · omega
  · have hrange : -2 ^ 7 ≤ signed 8 (lowByte i).toNat ∧ signed 8 (lowByte i).toNat < 2 ^ 7 :=
      signed_range 7 _
    constructor
    · omega
    · intro h
      exact signed_lowByte h.1 (by omega)

theorem toInt_ofInt {i : ℤ} (h : -2 ^ 63 ≤ i ∧ i < 2 ^ 63) : (BitVec.ofInt 64 i).toInt = i := by
  rw [BitVec.toInt_ofInt]
  exact Int.bmod_eq_of_le (by omega) (by omega)

theorem ofInt_toNat {i : ℤ} (h : 0 ≤ i) : BitVec.ofNat 64 i.toNat = .ofInt 64 i := by
  obtain ⟨n, rfl⟩ := Int.eq_ofNat_of_zero_le h
  rfl

theorem lowByte_eq (i : ℤ) : lowByte i = UInt8.ofNat (BitVec.ofInt 64 i).toNat := by
  apply UInt8.toNat_inj.mp
  rw [toNat_lowByte, UInt8.toNat_ofNat', BitVec.toNat_ofInt]
  omega

theorem parses_writeInt (i : ℤ) :
    Parses readValue (Bridge.writeInt i) (.int (.ofInt 64 (written i))) := by
  unfold Bridge.writeInt
  split_ifs
  · have hvalue : written i = i := written_eq_iff.mpr (by omega)
    rw [hvalue, lowByte, Int.emod_eq_of_lt (by omega) (by omega), ← ofInt_toNat (by omega)]
    apply parses_tagged
    rw [Serialization.RoundTrip.readTagged_fixint _ (by omega)]
    exact parses_pure _
  · have hvalue : written i = i := written_eq_iff.mpr (by omega)
    have hint := toInt_ofInt (i := i) (by omega)
    rw [hvalue, lowByte_eq]
    exact Serialization.RoundTrip.parses_negative_fixint (by omega) (by omega)
  · have hvalue : ((lowByte i).toNat : ℤ) = written i := by
      rw [toNat_lowByte, written_eq_iff.mpr (by omega)]
      omega
    have hread : Parses readValue [0xcc, lowByte i] (.int ((lowByte i).toBitVec.setWidth 64)) :=
      parses_extended_byte (f := (·.setWidth 64)) rfl (lowByte i)
    have hword : (lowByte i).toBitVec.setWidth 64 = .ofInt 64 (written i) := by
      rw [← hvalue, BitVec.ofInt_natCast]
      apply BitVec.eq_of_toNat_eq
      rw [BitVec.toNat_setWidth, BitVec.toNat_ofNat]
      rfl
    rwa [hword] at hread
  · have hread : Parses readValue (0xcd :: toBE 2 i.toNat)
        (.int ((BitVec.ofNat 16 i.toNat).setWidth 64)) :=
      parses_extended_word (f := (·.setWidth 64)) rfl (by norm_num) i.toNat
    have hword : (BitVec.ofNat 16 i.toNat).setWidth 64 = .ofInt 64 (written i) := by
      have hvalue : written i = i % 2 ^ 16 := if_pos (by omega)
      apply BitVec.eq_of_toNat_eq
      rw [hvalue, BitVec.toNat_setWidth, BitVec.toNat_ofNat, BitVec.toNat_ofInt]
      omega
    rwa [hword, ← lowBytes_eq (by omega)] at hread
  · have hvalue : written i = signed 8 (lowByte i).toNat := if_neg (by omega)
    have hread : Parses readValue [0xd0, lowByte i]
        (.int ((lowByte i).toBitVec.signExtend 64)) :=
      parses_extended_byte (f := (·.signExtend 64)) rfl (lowByte i)
    have hword : (lowByte i).toBitVec.signExtend 64 = .ofInt 64 (written i) := by
      have hbyte : BitVec.ofNat 8 (lowByte i).toNat = (lowByte i).toBitVec := by
        apply BitVec.eq_of_toNat_eq
        exact Nat.mod_eq_of_lt (lowByte i).toNat_lt
      rw [hvalue, signed, hbyte, BitVec.signExtend]
    rwa [hword] at hread

theorem reads_writeInt {i : ℤ} (h : -2 ^ 63 ≤ i ∧ i < 2 ^ 63) :
    Reads (-128 ≤ i ∧ i ≤ 0xffff) readValue (Bridge.writeInt i) (.int (.ofInt 64 i)) := by
  have hparses := parses_writeInt i
  refine ⟨fun hgood ↦ ?_, fun hbad ↦ hparses.misses fun heq ↦ hbad (written_eq_iff.mp ?_)⟩
  · rwa [written_eq_iff.mpr hgood] at hparses
  · have hint := congrArg BitVec.toInt (CfxValue.int.inj heq)
    rwa [toInt_ofInt (written_range i), toInt_ofInt h] at hint

end Int

section Lengths

theorem misses_length {tag : UInt8} {f : ℕ → Cursor CfxValue} {v : CfxValue} {len : ℕ}
    {bytes : List UInt8} (hread : readTagged readValue tag = do f (← readU16).toNat)
    (hsize : ∀ n c c', (f n).run c = .ok (v, c') → n = len) (hlong : ¬len ≤ 0xffff) :
    Misses readValue (tag :: bytes) v := by
  intro rest rest' heq
  rw [List.cons_append, Unpack.readValue_cons, hread] at heq
  obtain ⟨n, d, -, hf⟩ := run_bind_eq_ok.mp heq
  have hlen := hsize _ _ _ hf
  have hn := n.isLt
  omega

theorem length_of_readStr {n : ℕ} {s : String} {c c' : List UInt8}
    (h : (Unpack.readStr n).run c = .ok (.str s, c')) : n = (utf8 s).length := by
  obtain ⟨bytes, d, hbytes, hs⟩ := run_bind_eq_ok.mp h
  cases hutf8 : ofUtf8 bytes with
  | none =>
    rw [hutf8] at hs
    cases hs
  | some s' =>
    rw [hutf8] at hs
    cases hs
    rw [utf8_of_ofUtf8 hutf8]
    exact (length_of_takeBytes hbytes).symm

theorem length_of_readArray {n : ℕ} {items : List CfxValue} {c c' : List UInt8}
    (h : (readArray readValue n).run c = .ok (.array items, c')) : n = items.length := by
  obtain ⟨items', d, hitems, hpure⟩ := run_bind_eq_ok.mp h
  cases hpure
  exact (length_of_repeatRead hitems).symm

theorem length_of_readMap {n : ℕ} {entries : List (CfxValue × CfxValue)} {c c' : List UInt8}
    (h : (Unpack.readMap readValue n).run c = .ok (.map entries, c')) : n = entries.length := by
  obtain ⟨entries', d, hentries, hpure⟩ := run_bind_eq_ok.mp h
  cases hpure
  exact (length_of_repeatRead hentries).symm

/-- Below 16 bits of length the two packers write the same headers. -/
theorem writeString_eq {s : String} (h : (utf8 s).length ≤ 0xffff) :
    Bridge.writeString s = Pack.writeStr s := by
  simp [Bridge.writeString, Pack.writeStr, h, Nat.lt_succ_iff]

theorem arrayHeader_eq {n : ℕ} (h : n ≤ 0xffff) : Bridge.arrayHeader n = Pack.arrayHeader n := by
  simp [Bridge.arrayHeader, Pack.arrayHeader, h, Nat.lt_succ_iff]

theorem objectHeader_eq {n : ℕ} (h : n ≤ 0xffff) : objectHeader n = Pack.mapHeader n := by
  simp [objectHeader, Pack.mapHeader, h, Nat.lt_succ_iff]

theorem reads_writeString (s : String) :
    Reads ((utf8 s).length ≤ 0xffff) readValue (Bridge.writeString s) (.str s) := by
  refine ⟨fun hshort ↦ ?_, fun hlong ↦ ?_⟩
  · rw [writeString_eq hshort]
    exact Serialization.RoundTrip.parses_writeStr (by omega)
  · rw [Bridge.writeString, if_neg (by omega), if_neg (by omega)]
    exact misses_length (f := Unpack.readStr) rfl (fun _ _ _ ↦ length_of_readStr) hlong

variable {good : Prop} {bytes : List UInt8}

theorem reads_arrayHeader {items : List CfxValue} {n : ℕ} (hn : items.length = n)
    (h : Reads good (repeatRead readValue n) bytes items) :
    Reads (n ≤ 0xffff ∧ good) readValue (Bridge.arrayHeader n ++ bytes) (.array items) := by
  have harray := h.map (g := CfxValue.array) (fun _ _ ↦ CfxValue.array.inj)
  by_cases hshort : n ≤ 0xffff
  · rw [arrayHeader_eq hshort]
    exact (Serialization.RoundTrip.reads_arrayHeader (by omega) harray).congr
      (and_iff_right hshort)
  · refine ⟨fun hboth ↦ absurd hboth.1 hshort, fun _ ↦ ?_⟩
    rw [Bridge.arrayHeader, if_neg (by omega)]
    exact misses_length (f := readArray readValue) rfl
      (fun _ _ _ hread ↦ (length_of_readArray hread).trans hn) hshort

theorem reads_objectHeader {entries : List (CfxValue × CfxValue)} {n : ℕ}
    (hn : entries.length = n) (h : Reads good (repeatRead (readEntry readValue) n) bytes entries) :
    Reads (n ≤ 0xffff ∧ good) readValue (objectHeader n ++ bytes) (.map entries) := by
  have hmap := h.map (g := CfxValue.map) (fun _ _ ↦ CfxValue.map.inj)
  by_cases hshort : n ≤ 0xffff
  · rw [objectHeader_eq hshort]
    exact (Serialization.RoundTrip.reads_mapHeader (by omega) hmap).congr (and_iff_right hshort)
  · refine ⟨fun hboth ↦ absurd hboth.1 hshort, fun _ ↦ ?_⟩
    rw [objectHeader, if_neg (by omega)]
    exact misses_length (f := Unpack.readMap readValue) rfl
      (fun _ _ _ hread ↦ (length_of_readMap hread).trans hn) hshort

end Lengths

section Values

/-- A value that is read exactly when its parts are whole. -/
def Unpacks (j : Json) : Prop :=
  Reads (∀ x ∈ j.parts, whole x) readValue (write j) (ofJson j)

theorem length_ofItems (items : List Json) : (ofItems items).length = items.length := by
  induction items with
  | nil => rfl
  | cons x items ih => simp [ofItems, ih]

theorem length_ofEntries (entries : List (String × Json)) :
    (ofEntries entries).length = entries.length := by
  induction entries with
  | nil => rfl
  | cons e entries ih => simp [ofEntries, ih]

theorem unpacks_items {items : List Json} (h : ∀ x ∈ items, Unpacks x) :
    Reads (∀ y ∈ Json.partsItems items, whole y) (repeatRead readValue items.length)
      (writeItems items) (ofItems items) := by
  induction items with
  | nil => exact (parses_pure []).reads (by simp [Json.partsItems])
  | cons x items ih =>
    obtain ⟨hx, hitems⟩ := List.forall_mem_cons.mp h
    refine (hx.cons (ih hitems)).congr ?_
    rw [Json.partsItems]
    exact List.forall_mem_append

theorem unpacks_entries {entries : List (String × Json)} (h : ∀ e ∈ entries, Unpacks e.2) :
    Reads (∀ y ∈ Json.partsEntries entries, whole y)
      (repeatRead (readEntry readValue) entries.length) (writeEntries entries)
      (ofEntries entries) := by
  induction entries with
  | nil => exact (parses_pure []).reads (by simp [Json.partsEntries])
  | cons e entries ih =>
    obtain ⟨he, hentries⟩ := List.forall_mem_cons.mp h
    have hentry := (reads_writeString e.1).pair he
    refine (Reads.cons hentry (ih hentries)).congr ?_
    rw [Json.partsEntries, List.forall_mem_append, List.forall_mem_cons]
    rfl

theorem unpacks_of_leaf {j : Json} {good : Prop} (hparts : j.parts = [j]) (hgood : whole j ↔ good)
    (h : Reads good readValue (write j) (ofJson j)) : Unpacks j := by
  refine h.congr ?_
  rw [hparts, List.forall_mem_singleton, hgood]

theorem unpacks_of_parses {j : Json} (hparts : j.parts = [j]) (hgood : whole j)
    (h : Parses readValue (write j) (ofJson j)) : Unpacks j :=
  unpacks_of_leaf hparts (iff_true_intro hgood) (h.reads trivial)

theorem unpacks (j : Json) (h : ∀ x ∈ j.parts, inRange x) : Unpacks j := by
  induction j using Json.induct with
  | leaf j harray hobject =>
    cases j with
    | null => exact unpacks_of_parses rfl trivial (parses_tagged (parses_pure _))
    | bool b => cases b <;> exact unpacks_of_parses rfl trivial (parses_tagged (parses_pure _))
    | number n =>
      cases n with
      | int n =>
        have hrange : -2 ^ 63 ≤ n ∧ n < 2 ^ 63 := h _ (Json.mem_parts_self _)
        have hword : (Number.int n).asI64 = some n := if_pos hrange.2
        refine unpacks_of_leaf rfl Iff.rfl ?_
        rw [write, writeNumber, hword]
        exact reads_writeInt hrange
      | float bits =>
        refine unpacks_of_parses rfl trivial (parses_tagged ?_)
        exact (Serialization.RoundTrip.parses_word_toNat (by norm_num) bits).map CfxValue.float
    | string s => exact unpacks_of_leaf rfl Iff.rfl (reads_writeString s)
    | array items => exact absurd rfl (harray items)
    | object entries => exact absurd rfl (hobject entries)
  | array items ih =>
    have hmembers : ∀ x ∈ items, Unpacks x := by
      intro x hx
      refine ih x hx (fun y hy ↦ h y ?_)
      rw [Json.parts, List.mem_cons, Json.mem_partsItems]
      exact .inr ⟨x, hx, hy⟩
    refine (reads_arrayHeader (length_ofItems items) (unpacks_items hmembers)).congr ?_
    rw [Json.parts, List.forall_mem_cons]
    rfl
  | object entries ih =>
    have hmembers : ∀ e ∈ entries, Unpacks e.2 := by
      intro e he
      refine ih e he (fun y hy ↦ h y ?_)
      rw [Json.parts, List.mem_cons, Json.mem_partsEntries]
      exact .inr ⟨e, he, .inr hy⟩
    refine (reads_objectHeader (length_ofEntries entries) (unpacks_entries hmembers)).congr ?_
    rw [Json.parts, List.forall_mem_cons]
    rfl

theorem unpack_eq_ok_iff {b : List UInt8} {v : CfxValue} :
    unpack b = .ok v ↔ ∃ rest, readValue.run b = .ok (v, rest) := by
  unfold unpack
  cases readValue.run b with
  | error e => simp [bind, Except.bind]
  | ok x =>
    obtain ⟨w, rest⟩ := x
    simp [bind, Except.bind, pure, Except.pure]

def Unpacked (j : Json) : Prop := ∃ b, jsonToMsgpack j = .ok b ∧ unpack b = .ok (ofJson j)

/-- Values that resources pack are unpacked to what they stand for exactly when they are whole. -/
theorem unpacked_iff (j : Json) (h : ∀ x ∈ j.parts, inRange x) :
    Unpacked j ↔ ∀ x ∈ j.parts, whole x := by
  have hreads := unpacks j h
  constructor
  · intro hrun
    obtain ⟨b, hb, hunpack⟩ := hrun
    obtain ⟨rest, hrest⟩ := unpack_eq_ok_iff.mp hunpack
    by_contra hbad
    cases hb
    exact hreads.2 hbad [] rest (by rwa [List.append_nil])
  · intro hwhole
    have hrun := hreads.1 hwhole []
    rw [List.append_nil] at hrun
    exact ⟨_, rfl, unpack_eq_ok_iff.mpr ⟨[], hrun⟩⟩

end Values

end Aldivine.CfxLua.Unpacking
