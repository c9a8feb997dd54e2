import Aldivine.CfxLua.Bridge

namespace Aldivine.CfxLua.RoundTrip

open Foundation.Ascending Foundation.Text Foundation.Wire Bridge

/-- Integers are words, floats are finite, lengths fit 32 bits, and keys ascend. -/
def valid : Json → Prop
  | .number (.int n) => -2 ^ 63 ≤ n ∧ n < 2 ^ 63
  | .number (.float bits) => finite bits = true
  | .string s => (utf8 s).length < 2 ^ 32
  | .array items => items.length < 2 ^ 32
  | .object entries => entries.length < 2 ^ 32 ∧ Ascends entries
  | _ => True

/-- The integers that keep their bytes and are read from all of them, and the lengths that fit 16
bits. -/
def narrow : Json → Prop
  | .number (.int n) => -128 ≤ n ∧ n ≤ 127 ∨ 256 ≤ n ∧ n ≤ 0xffff
  | .string s => (utf8 s).length ≤ 0xffff
  | .array items => items.length ≤ 0xffff
  | .object entries => entries.length ≤ 0xffff
  | _ => True

variable {texts : Texts}

section Tags

variable {read : Reader String Json} {t : UInt8}

theorem not_le_of_le {a b t : UInt8} (h : a ≤ t) (hba : ¬a ≤ b) : ¬t ≤ b :=
  fun hle ↦ hba (UInt8.le_trans h hle)

theorem not_le_of_ge {a b t : UInt8} (h : t ≤ b) (hab : ¬a ≤ b) : ¬a ≤ t :=
  fun hle ↦ hab (UInt8.le_trans hle h)

theorem readTagged_positive (h : t ≤ 0x7f) :
    readTagged texts read t = return .number (.int t.toNat) := by
  unfold readTagged
  split
  all_goals first
    | exact absurd h (by decide)
    | exact if_pos h

theorem readTagged_negative (h : 0xe0 ≤ t) :
    readTagged texts read t = return .number (.int (signed 8 t.toNat)) := by
  have hlow : ¬t ≤ 0x7f := not_le_of_le h (by decide)
  unfold readTagged
  split
  all_goals first
    | exact absurd h (by decide)
    | rw [if_neg hlow, if_pos h]

theorem readTagged_fixstr (h : 0xa0 ≤ t ∧ t ≤ 0xbf) :
    readTagged texts read t = readStr texts (t &&& 0x1f).toNat := by
  have hlow : ¬t ≤ 0x7f := not_le_of_le h.1 (by decide)
  have hhigh : ¬0xe0 ≤ t := not_le_of_ge h.2 (by decide)
  unfold readTagged
  split
  all_goals first
    | exact absurd h (by decide)
    | rw [if_neg hlow, if_neg hhigh, if_pos h]

theorem readTagged_fixarray (h : 0x90 ≤ t ∧ t ≤ 0x9f) :
    readTagged texts read t = readArr read (t &&& 0x0f).toNat := by
  have hlow : ¬t ≤ 0x7f := not_le_of_le h.1 (by decide)
  have hhigh : ¬0xe0 ≤ t := not_le_of_ge h.2 (by decide)
  have hstr : ¬(0xa0 ≤ t ∧ t ≤ 0xbf) := fun hle ↦ not_le_of_ge h.2 (by decide) hle.1
  unfold readTagged
  split
  all_goals first
    | exact absurd h (by decide)
    | rw [if_neg hlow, if_neg hhigh, if_neg hstr, if_pos h]

theorem readTagged_fixmap (h : 0x80 ≤ t ∧ t ≤ 0x8f) :
    readTagged texts read t = readMap texts read (t &&& 0x0f).toNat := by
  have hlow : ¬t ≤ 0x7f := not_le_of_le h.1 (by decide)
  have hhigh : ¬0xe0 ≤ t := not_le_of_ge h.2 (by decide)
  have hstr : ¬(0xa0 ≤ t ∧ t ≤ 0xbf) := fun hle ↦ not_le_of_ge h.2 (by decide) hle.1
  have harr : ¬(0x90 ≤ t ∧ t ≤ 0x9f) := fun hle ↦ not_le_of_ge h.2 (by decide) hle.1
  unfold readTagged
  split
  all_goals first
    | exact absurd h (by decide)
    | rw [if_neg hlow, if_neg hhigh, if_neg hstr, if_neg harr, if_pos h]

end Tags

section Bytes

theorem toNat_lowByte (i : ℤ) : (lowByte i).toNat = (i % 256).toNat :=
  UInt8.toNat_ofNat_of_lt' (by change (i % 256).toNat < 256; omega)

theorem lowBytes_eq {i : ℤ} (h : 0 ≤ i) : [lowByte (i / 2 ^ 8), lowByte i] = toBE 2 i.toNat := by
  have hhigh : UInt8.ofNat (i / 2 ^ 8 % 256).toNat = UInt8.ofNat (i.toNat / 256 ^ 1) := by
    apply UInt8.toNat_inj.mp
    rw [UInt8.toNat_ofNat', UInt8.toNat_ofNat']
    omega
  have hlow : UInt8.ofNat (i % 256).toNat = UInt8.ofNat (i.toNat / 256 ^ 0) := by
    apply UInt8.toNat_inj.mp
    rw [UInt8.toNat_ofNat', UInt8.toNat_ofNat']
    omega
  rw [lowByte, lowByte, hhigh, hlow]
  rfl

theorem signed_lowByte {i : ℤ} (hlo : -128 ≤ i) (hhi : i ≤ 127) :
    signed 8 (lowByte i).toNat = i := by
  have hcast : ((i % 256).toNat : ℤ) = i % 256 := Int.toNat_of_nonneg (by omega)
  rw [signed, toNat_lowByte, BitVec.toInt_ofNat', hcast]
  exact (Int.emod_bmod i 256).trans (Int.bmod_eq_of_le (by omega) (by omega))

theorem signed_range (w n : ℕ) : -2 ^ w ≤ signed (w + 1) n ∧ signed (w + 1) n < 2 ^ w :=
  ⟨BitVec.le_toInt _, BitVec.toInt_lt⟩

theorem parses_word {k n : ℕ} (h : n < 256 ^ k) : Parses (word k) (toBE k n) n :=
  parses_readBE "truncated" h

theorem parses_byte (b : UInt8) : Parses (word 1) [b] b.toNat := by
  have htake : Parses (takeBytes "truncated" 1) [b] [b] := parses_takeBytes "truncated" rfl
  have hread := htake.map ofBE
  have hvalue : ofBE [b] = b.toNat := by
    simp [ofBE]
  rwa [hvalue] at hread

theorem parses_tagged {tag : UInt8} {bytes : List UInt8} {j : Json}
    (h : Parses (readTagged texts (readValue texts) tag) bytes j) :
    Parses (readValue texts) (tag :: bytes) j := by
  intro rest
  rw [List.cons_append, readValue_cons]
  exact h rest

end Bytes

section Restoring

theorem toBE_one (n : ℕ) : toBE 1 n = [UInt8.ofNat n] := by
  rw [toBE, toBE, Nat.pow_zero, Nat.div_one]

theorem parses_writeInt {i : ℤ} (h : -128 ≤ i ∧ i ≤ 127 ∨ 256 ≤ i ∧ i ≤ 0xffff) :
    Parses (readValue texts) (writeInt i) (.number (.int i)) := by
  have hbyte := toNat_lowByte i
  unfold writeInt
  split_ifs
  · have hlow : lowByte i ≤ 0x7f := UInt8.le_iff_toNat_le.mpr (by rw [hbyte]; change _ ≤ 127; omega)
    have hvalue : ((lowByte i).toNat : ℤ) = i := by omega
    apply parses_tagged
    rw [readTagged_positive hlow, hvalue]
    exact parses_pure _
  · have hhigh : 0xe0 ≤ lowByte i :=
      UInt8.le_iff_toNat_le.mpr (by rw [hbyte]; change 224 ≤ _; omega)
    apply parses_tagged
    rw [readTagged_negative hhigh, signed_lowByte (by omega) (by omega)]
    exact parses_pure _
  · omega
  · have hvalue : (i.toNat : ℤ) = i := Int.toNat_of_nonneg (by omega)
    have hread := (parses_word (k := 2) (n := i.toNat) (by omega)).map
      (fun n : ℕ ↦ Json.number (.int n))
    rw [hvalue, ← lowBytes_eq (by omega)] at hread
    exact parses_tagged hread
  · have hread := (parses_byte (lowByte i)).map (fun n : ℕ ↦ Json.number (.int (signed 8 n)))
    rw [signed_lowByte (by omega) (by omega)] at hread
    exact parses_tagged hread

theorem parses_readStr (s : String) :
    Parses (readStr texts (utf8 s).length) (utf8 s) (.string s) := by
  have hread : Parses (readStr texts (utf8 s).length) (utf8 s ++ []) (.string s) := by
    refine (parses_takeBytes _ rfl).bind ?_
    rw [ofUtf8_utf8]
    exact parses_pure _
  rwa [List.append_nil] at hread

theorem fix_tags :
    (∀ n < 32, (0xa0 ≤ 0xa0 ||| UInt8.ofNat n ∧ 0xa0 ||| UInt8.ofNat n ≤ 0xbf) ∧
        ((0xa0 ||| UInt8.ofNat n) &&& 0x1f).toNat = n) ∧
      (∀ n < 16, (0x90 ≤ 0x90 ||| UInt8.ofNat n ∧ 0x90 ||| UInt8.ofNat n ≤ 0x9f) ∧
        ((0x90 ||| UInt8.ofNat n) &&& 0x0f).toNat = n) ∧
      ∀ n < 16, (0x80 ≤ 0x80 ||| UInt8.ofNat n ∧ 0x80 ||| UInt8.ofNat n ≤ 0x8f) ∧
        ((0x80 ||| UInt8.ofNat n) &&& 0x0f).toNat = n := by
  decide

theorem parses_length {k n : ℕ} {f : ℕ → Reader String Json} {bytes : List UInt8} {j : Json}
    (hn : n < 256 ^ k) (h : Parses (f n) bytes j) :
    Parses (word k >>= f) (toBE k n ++ bytes) j := (parses_word hn).bind h

theorem parses_writeString {s : String} (h : (utf8 s).length ≤ 0xffff) :
    Parses (readValue texts) (writeString s) (.string s) := by
  have hread : Parses (readStr texts (utf8 s).length) (utf8 s) (.string s) := parses_readStr s
  unfold writeString
  dsimp only
  split_ifs with hfix hbyte
  · obtain ⟨hrange, hlength⟩ := fix_tags.1 _ (Nat.lt_succ_of_le hfix)
    apply parses_tagged
    rw [readTagged_fixstr hrange, hlength]
    exact hread
  · have hread := parses_length (k := 1) (Nat.lt_succ_of_le hbyte) hread
    rw [toBE_one] at hread
    exact parses_tagged hread
  · exact parses_tagged (parses_length (k := 2) (Nat.lt_succ_of_le h) hread)

theorem run_arrayHeader {n : ℕ} (hn : n ≤ 0xffff) (rest : List UInt8) :
    (readValue texts).run (arrayHeader n ++ rest) = (readArr (readValue texts) n).run rest := by
  unfold arrayHeader
  split_ifs with hfix
  · obtain ⟨hrange, hlength⟩ := fix_tags.2.1 n (Nat.lt_succ_of_le hfix)
    rw [List.cons_append, readValue_cons, readTagged_fixarray hrange, hlength]
    rfl
  · rw [List.cons_append, readValue_cons]
    exact run_bind_ok (parses_word (k := 2) (Nat.lt_succ_of_le hn) rest)

theorem run_objectHeader {n : ℕ} (hn : n ≤ 0xffff) (rest : List UInt8) :
    (readValue texts).run (objectHeader n ++ rest) =
      (readMap texts (readValue texts) n).run rest := by
  unfold objectHeader
  split_ifs with hfix
  · obtain ⟨hrange, hlength⟩ := fix_tags.2.2 n (Nat.lt_succ_of_le hfix)
    rw [List.cons_append, readValue_cons, readTagged_fixmap hrange, hlength]
    rfl
  · rw [List.cons_append, readValue_cons]
    exact run_bind_ok (parses_word (k := 2) (Nat.lt_succ_of_le hn) rest)

theorem readEntries_eq (read : Reader String Json) (n : ℕ) (map : List (String × Json)) :
    readEntries texts read n map =
      (fun entries ↦ entries.foldl (fun m e ↦ Foundation.Ascending.insert e.1 e.2 m) map) <$>
        repeatRead (readEntry texts read) n := by
  induction n generalizing map with
  | zero => simp [readEntries, repeatRead]
  | succ n ih => simp [readEntries, repeatRead, ih]

theorem readMap_eq (read : Reader String Json) (n : ℕ) :
    readMap texts read n =
      (fun entries ↦ Json.object (ofEntries entries)) <$> repeatRead (readEntry texts read) n := by
  rw [readMap, readEntries_eq]
  simp [ofEntries]

theorem parses_items {items : List Json}
    (h : ∀ x ∈ items, Parses (readValue texts) (write x) x) :
    Parses (repeatRead (readValue texts) items.length) (writeItems items) items := by
  induction items with
  | nil => exact parses_pure []
  | cons x items ih =>
    obtain ⟨hx, hitems⟩ := List.forall_mem_cons.mp h
    exact hx.bind ((ih hitems).map (x :: ·))

theorem parses_entry {s : String} {j : Json} {bytes more : List UInt8}
    (hkey : Parses (readValue texts) bytes (.string s)) (hvalue : Parses (readValue texts) more j) :
    Parses (readEntry texts (readValue texts)) (bytes ++ more) (s, j) := by
  refine hkey.bind ?_
  have hpair := hvalue.map (fun v ↦ (s, v))
  rwa [← bind_pure_comp] at hpair

theorem parses_entries {entries : List (String × Json)}
    (h : ∀ e ∈ entries, Parses (readValue texts) (writeString e.1) (.string e.1) ∧
      Parses (readValue texts) (write e.2) e.2) :
    Parses (repeatRead (readEntry texts (readValue texts)) entries.length) (writeEntries entries)
      entries := by
  induction entries with
  | nil => exact parses_pure []
  | cons e entries ih =>
    obtain ⟨⟨hkey, hvalue⟩, hentries⟩ := List.forall_mem_cons.mp h
    exact (parses_entry hkey hvalue).bind ((ih hentries).map (e :: ·))

/-- A value comes back if its parts are narrow. -/
theorem parses_write (j : Json) (hvalid : ∀ x ∈ j.parts, valid x) (h : ∀ x ∈ j.parts, narrow x) :
    Parses (readValue texts) (write j) j := by
  have hself := h j j.mem_parts_self
  have hvself := hvalid j j.mem_parts_self
  induction j using Json.induct with
  | leaf j harray hobject =>
    cases j with
    | null => exact parses_tagged (parses_pure _)
    | bool b => cases b <;> exact parses_tagged (parses_pure _)
    | number n =>
      cases n with
      | int n =>
        have hword : (Number.int n).asI64 = some n := if_pos hvself.2
        rw [write, writeNumber, hword]
        exact parses_writeInt hself
      | float bits =>
        have hread := (parses_word (k := 8) (n := bits.toNat) bits.isLt).map
          (fun n ↦ ofF64 (.ofNat 64 n))
        have hvalue : ofF64 (.ofNat 64 bits.toNat) = .number (.float bits) := by
          rw [BitVec.ofNat_toNat, BitVec.setWidth_eq]
          exact if_pos hvself
        rw [hvalue] at hread
        exact parses_tagged hread
    | string s => exact parses_writeString hself
    | array items => exact absurd rfl (harray items)
    | object entries => exact absurd rfl (hobject entries)
  | array items ih =>
    have hpart {x y : Json} (hx : x ∈ items) (hy : y ∈ x.parts) : y ∈ (Json.array items).parts := by
      rw [Json.parts, List.mem_cons, Json.mem_partsItems]
      exact .inr ⟨x, hx, hy⟩
    refine ((parses_items fun x hx ↦ ?_).map Json.array).shift (run_arrayHeader hself)
    exact ih x hx (fun y hy ↦ hvalid y (hpart hx hy)) (fun y hy ↦ h y (hpart hx hy))
      (h x (hpart hx x.mem_parts_self)) (hvalid x (hpart hx x.mem_parts_self))
  | object entries ih =>
    have hkey {e : String × Json} (he : e ∈ entries) :
        Json.string e.1 ∈ (Json.object entries).parts := by
      rw [Json.parts, List.mem_cons, Json.mem_partsEntries]
      exact .inr ⟨e, he, .inl rfl⟩
    have hpart {e : String × Json} {y : Json} (he : e ∈ entries) (hy : y ∈ e.2.parts) :
        y ∈ (Json.object entries).parts := by
      rw [Json.parts, List.mem_cons, Json.mem_partsEntries]
      exact .inr ⟨e, he, .inr hy⟩
    refine Parses.shift ?_ (run_objectHeader hself)
    have hparts : ∀ e ∈ entries, Parses (readValue texts) (writeString e.1) (.string e.1) ∧
        Parses (readValue texts) (write e.2) e.2 := by
      intro e he
      refine ⟨parses_writeString (h _ (hkey he)), ih e he ?_ ?_ ?_ ?_⟩
      · exact fun y hy ↦ hvalid y (hpart he hy)
      · exact fun y hy ↦ h y (hpart he hy)
      · exact h _ (hpart he e.2.mem_parts_self)
      · exact hvalid _ (hpart he e.2.mem_parts_self)
    have hentries := (parses_entries hparts).map (fun entries ↦ Json.object (ofEntries entries))
    rw [readMap_eq]
    rwa [ofEntries_eq_self hvself.2] at hentries

end Restoring

section Losing

theorem word_run {k : ℕ} {f : ℕ → Reader String Json} {c : List UInt8} {x : Json × List UInt8}
    (h : (word k >>= f).run c = .ok x) : ∃ n < 256 ^ k, ∃ d, (f n).run d = .ok x := by
  obtain ⟨n, d, hn, hf⟩ := run_bind_eq_ok.mp h
  exact ⟨n, readBE_lt hn, d, hf⟩

theorem length_of_readStr {n : ℕ} {s : String} {c c' : List UInt8}
    (h : (readStr texts n).run c = .ok (.string s, c')) : (utf8 s).length = n := by
  obtain ⟨bytes, d, hbytes, hs⟩ := run_bind_eq_ok.mp h
  cases hutf8 : ofUtf8 bytes with
  | none =>
    rw [hutf8] at hs
    cases hs
  | some s' =>
    rw [hutf8] at hs
    cases hs
    rw [utf8_of_ofUtf8 hutf8]
    exact length_of_takeBytes hbytes

theorem length_of_readArr {read : Reader String Json} {n : ℕ} {items : List Json}
    {c c' : List UInt8} (h : (readArr read n).run c = .ok (.array items, c')) :
    items.length = n := by
  obtain ⟨items', d, hitems, hpure⟩ := run_bind_eq_ok.mp h
  cases hpure
  exact length_of_repeatRead hitems

theorem length_of_readMap {read : Reader String Json} {n : ℕ} {entries : List (String × Json)}
    {c c' : List UInt8} (h : (readMap texts read n).run c = .ok (.object entries, c')) :
    entries.length ≤ n := by
  rw [readMap_eq, ← bind_pure_comp] at h
  obtain ⟨entries', d, hentries, hpure⟩ := run_bind_eq_ok.mp h
  cases hpure
  rw [← length_of_repeatRead hentries]
  exact length_ofEntries_le entries'

theorem narrow_writeInt {i : ℤ} (h : (readValue texts).run (writeInt i) = .ok (.number (.int i), [])) :
    -128 ≤ i ∧ i ≤ 127 ∨ 256 ≤ i ∧ i ≤ 0xffff := by
  unfold writeInt at h
  split_ifs at h
  · omega
  · omega
  · -- the byte of the number is still there to be read
    rw [readValue_cons] at h
    have hrest : [lowByte i] = [] := congrArg Prod.snd (Except.ok.inj h)
    cases hrest
  · rw [readValue_cons] at h
    obtain ⟨n, hn, d, hread⟩ := word_run h
    have hvalue : (n : ℤ) = i := by
      cases hread
      rfl
    omega
  · rw [readValue_cons] at h
    obtain ⟨n, hn, d, hread⟩ := word_run h
    have hvalue : signed 8 n = i := by
      cases hread
      rfl
    have hrange : -2 ^ 7 ≤ signed 8 n ∧ signed 8 n < 2 ^ 7 := signed_range 7 n
    omega

/-- The bytes of a value that is not narrow are not read back to it. -/
theorem narrow_of_run {j : Json} (hvalid : valid j)
    (h : (readValue texts).run (write j) = .ok (j, [])) : narrow j := by
  cases j with
  | null => trivial
  | bool b => trivial
  | number n =>
    cases n with
    | int n =>
      have hword : (Number.int n).asI64 = some n := if_pos hvalid.2
      rw [write, writeNumber, hword] at h
      exact narrow_writeInt h
    | float bits => trivial
  | string s =>
    by_contra hlong
    have hlong : 0xffff < (utf8 s).length := Nat.lt_of_not_le hlong
    rw [write, writeString, if_neg (by omega), if_neg (by omega), List.cons_append,
      readValue_cons] at h
    obtain ⟨n, hn, d, hread⟩ := word_run h
    have hlength := length_of_readStr hread
    omega
  | array items =>
    by_contra hlong
    have hlong : 0xffff < items.length := Nat.lt_of_not_le hlong
    rw [write, arrayHeader, if_neg (by omega), List.cons_append, readValue_cons] at h
    obtain ⟨n, hn, d, hread⟩ := word_run h
    have hlength := length_of_readArr hread
    omega
  | object entries =>
    by_contra hlong
    have hlong : 0xffff < entries.length := Nat.lt_of_not_le hlong
    rw [write, objectHeader, if_neg (by omega), List.cons_append, readValue_cons] at h
    obtain ⟨n, hn, d, hread⟩ := word_run h
    have hlength := length_of_readMap hread
    omega

end Losing

section Bridge

/-- The value comes back from exactly its own bytes, whatever follows them. -/
def Restored (texts : Texts) (j : Json) : Prop :=
  ∃ b, jsonToMsgpack j = .ok b ∧ (∀ s, (readValue texts).run (b ++ s) = .ok (j, s)) ∧
    msgpackToJson texts b = .ok j

theorem restored_of_parses {j : Json} (h : Parses (readValue texts) (write j) j) :
    Restored texts j := by
  refine ⟨write j, rfl, h, ?_⟩
  have hrun := h []
  rw [List.append_nil] at hrun
  rw [msgpackToJson, hrun]
  rfl

/-- A value comes back if its parts are narrow, and it comes back with all its parts only then. -/
theorem restored_iff_narrow (texts : Texts) (j : Json) (hvalid : ∀ x ∈ j.parts, valid x) :
    ((∀ x ∈ j.parts, narrow x) → Restored texts j) ∧
      ((∀ x ∈ j.parts, Restored texts x) ↔ ∀ x ∈ j.parts, narrow x) := by
  refine ⟨fun h ↦ restored_of_parses (parses_write j hvalid h), fun h x hx ↦ ?_, fun h x hx ↦ ?_⟩
  · obtain ⟨b, hb, hrun, -⟩ := h x hx
    have hexact := hrun []
    cases hb
    rw [List.append_nil] at hexact
    exact narrow_of_run (hvalid x hx) hexact
  · exact restored_of_parses (parses_write x (fun y hy ↦ hvalid y (Json.parts_trans hy hx))
      (fun y hy ↦ h y (Json.parts_trans hy hx)))

def noTexts : Texts := ⟨fun _ ↦ "", fun _ ↦ ""⟩

theorem entity_restored :
    Restored noTexts (.object [("hp", .array [.number (.int 100), .number (.int (-100))])]) := by
  refine (restored_iff_narrow noTexts _ ?_).1 ?_
  · simp [Json.parts, Json.partsEntries, Json.partsItems, valid, Ascends, utf8]
    decide
  · simp [Json.parts, Json.partsEntries, Json.partsItems, narrow, utf8]
    decide

/-- The byte of 200 is read again, as a tag. -/
theorem int200_misread :
    (∀ x ∈ (Json.array [.number (.int 200), .string "a"]).parts, valid x) ∧
      jsonToMsgpack (.array [.number (.int 200), .string "a"]) =
        .ok [0x92, 0xcc, 0xc8, 0xa1, 0x61] ∧
      msgpackToJson noTexts [0x92, 0xcc, 0xc8, 0xa1, 0x61] =
        .error "unsupported msgpack type byte 0xc8" := by
  refine ⟨?_, rfl, rfl⟩
  simp [Json.parts, Json.partsItems, valid, utf8]
  decide

-- behind 208 a small integer makes up for the byte that was left, since 208 is also the tag of
-- signed bytes: a value can come back although one of its parts does not
example : (readValue noTexts).run (write (.array [.number (.int 208), .number (.int 5)])) =
    .ok (.array [.number (.int 208), .number (.int 5)], []) := rfl

end Bridge

end Aldivine.CfxLua.RoundTrip
