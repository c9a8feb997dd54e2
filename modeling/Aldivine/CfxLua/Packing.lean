import Aldivine.CfxLua.Unpacking
import Aldivine.Foundation.Utf8

namespace Aldivine.CfxLua.Packing

open Foundation.Ascending Foundation.Text Foundation.Wire Bridge Serialization Serialization.Value
open CfxLua.RoundTrip
open Serialization.RoundTrip (toNat_of_nonneg toNat_of_neg signExtend_ofNat)

section Values

def key : CfxValue → Option String
  | .str s => some s
  | _ => none

/-- The constructors that JSON has too; the keys of a map are distinct strings. -/
def plain : CfxValue → Bool
  | .nil | .bool _ | .int _ | .float _ | .str _ | .array _ => true
  | .map entries => entries.all (fun e ↦ (key e.1).isSome) ∧ (entries.map (key ·.1)).Nodup
  | _ => false

mutual

/-- The JSON value that a plain value stands for. A float that is not finite keeps its bits, with
which it is no number of `serde_json`. -/
def toJson : CfxValue → Json
  | .bool b => .bool b
  | .int n => .number (.int n.toInt)
  | .float bits => .number (.float bits)
  | .str s => .string s
  | .array items => .array (toItems items)
  | .map entries => .object (Foundation.Ascending.ofEntries (toEntries entries))
  | _ => .null

def toItems : List CfxValue → List Json
  | [] => []
  | v :: items => toJson v :: toItems items

def toEntries : List (CfxValue × CfxValue) → List (String × Json)
  | [] => []
  | (k, v) :: entries => ((key k).getD "", toJson v) :: toEntries entries

end

/-- Floats are finite, lengths fit 32 bits, and no integer is tagged as a 16- or 32-bit word. -/
def kept : CfxValue → Bool
  | .int n => n.toInt < 256 ∨ 0xffffffff < n.toInt
  | .float bits => finite bits
  | .str s => (utf8 s).length < 2 ^ 32
  | .array items => items.length < 2 ^ 32
  | .map entries => entries.length < 2 ^ 32
  | _ => true

/-- Not one of the integers whose byte is read without moving on. -/
def unpeeked : CfxValue → Bool
  | .int n => n.toInt < 128 ∨ 255 < n.toInt
  | _ => true

end Values

variable {texts : Texts}

section Int

theorem misses_zero {tag : UInt8} {k j : ℕ} {n : BitVec 64}
    (hread : readTagged texts (readValue texts) tag = do return .number (.int (← word k)))
    (hk : k + j = 8) (hlow : n.toNat < 256 ^ j) (hn : n.toInt ≠ 0) :
    Misses (readValue texts) (tag :: toBE 8 n.toNat) (.number (.int n.toInt)) := by
  have hzero : Parses (readTagged texts (readValue texts) tag) (toBE k 0) (.number (.int 0)) := by
    rw [hread]
    exact (parses_word (Nat.pow_pos (by decide))).map (fun n : ℕ ↦ Json.number (.int n))
  have hbytes : tag :: toBE 8 n.toNat = (tag :: toBE k 0) ++ toBE j n.toNat := by
    rw [← hk, toBE_add, Nat.div_eq_of_lt hlow, List.cons_append]
  rw [hbytes]
  refine ((parses_tagged hzero).misses fun heq ↦ hn ?_).append _
  exact (Number.int.inj (Json.number.inj heq)).symm

/-- The low word of a number that fits it stands for the number. -/
theorem signed_toNat {w : ℕ} {n : BitVec 64} (hw : w + 1 ≤ 64) (hlo : -2 ^ w ≤ n.toInt)
    (hhi : n.toInt < 2 ^ w) : signed (w + 1) (n.toNat % 2 ^ (w + 1)) = n.toInt := by
  have hlow : BitVec.ofNat (w + 1) (n.toNat % 2 ^ (w + 1)) = BitVec.ofNat (w + 1) n.toNat := by
    apply BitVec.eq_of_toNat_eq
    rw [BitVec.toNat_ofNat, BitVec.toNat_ofNat, Nat.mod_mod]
  rw [signed, hlow, ← BitVec.toInt_signExtend_of_le hw, signExtend_ofNat hw n hlo hhi]

theorem parses_signed {tag : UInt8} {w k : ℕ} {n : BitVec 64}
    (hread : readTagged texts (readValue texts) tag = do
      return .number (.int (signed (w + 1) (← word k))))
    (hk : 256 ^ k = 2 ^ (w + 1)) (hw : w + 1 ≤ 64) (hlo : -2 ^ w ≤ n.toInt)
    (hhi : n.toInt < 2 ^ w) :
    Parses (readValue texts) (tag :: toBE k n.toNat) (.number (.int n.toInt)) := by
  have hword : Parses (word k) (toBE k n.toNat) (n.toNat % 2 ^ (w + 1)) := by
    have htake := (parses_takeBytes "truncated" (length_toBE k n.toNat)).map ofBE
    rwa [ofBE_toBE, hk] at htake
  have hparses := hword.map (fun n : ℕ ↦ Json.number (.int (signed (w + 1) n)))
  rw [signed_toNat hw hlo hhi] at hparses
  apply parses_tagged
  rw [hread]
  exact hparses

theorem reads_writeInt {n : BitVec 64} (h : n.toInt < 128 ∨ 255 < n.toInt) :
    Reads (n.toInt < 256 ∨ 0xffffffff < n.toInt) (readValue texts) (Pack.writeInt n)
      (.number (.int n.toInt)) := by
  have hpos := fun h0 ↦ toNat_of_nonneg (n := n) h0
  unfold Pack.writeInt
  dsimp only
  split_ifs
  · have hbyte : (UInt8.ofNat n.toNat).toNat = n.toNat := by
      rw [UInt8.toNat_ofNat']
      omega
    have hlow : UInt8.ofNat n.toNat ≤ 0x7f := by
      rw [UInt8.le_iff_toNat_le, hbyte]
      change n.toNat ≤ 127
      omega
    refine Parses.reads (parses_tagged ?_) (by omega)
    rw [readTagged_positive hlow, hbyte, hpos (by omega)]
    exact parses_pure _
  · omega
  · exact (misses_zero (k := 2) (j := 6) rfl rfl (by omega) (by omega)).reads (by omega)
  · exact (misses_zero (k := 4) (j := 4) rfl rfl (by omega) (by omega)).reads (by omega)
  · have hread := (parses_word (k := 8) n.isLt).map (fun n : ℕ ↦ Json.number (.int n))
    rw [hpos (by omega)] at hread
    exact Parses.reads (parses_tagged hread) (by omega)
  · have hneg := toNat_of_neg (n := n) (by omega)
    have hhigh : 0xe0 ≤ UInt8.ofNat n.toNat := by
      rw [UInt8.le_iff_toNat_le, UInt8.toNat_ofNat']
      change 224 ≤ n.toNat % 2 ^ 8
      omega
    refine Parses.reads (parses_tagged ?_) (by omega)
    rw [readTagged_negative hhigh, UInt8.toNat_ofNat',
      signed_toNat (w := 7) (by omega) (by omega) (by omega)]
    exact parses_pure _
  · have hread : Parses (readValue texts) (0xd0 :: toBE 1 n.toNat) (.number (.int n.toInt)) :=
      parses_signed (w := 7) rfl rfl (by omega) (by omega) (by omega)
    rw [toBE_one] at hread
    exact hread.reads (by omega)
  · exact (parses_signed (w := 15) (k := 2) rfl rfl (by omega) (by omega) (by omega)).reads
      (by omega)
  · exact (parses_signed (w := 31) (k := 4) rfl rfl (by omega) (by omega) (by omega)).reads
      (by omega)
  · exact (parses_signed (w := 63) (k := 8) rfl rfl (by omega) n.le_toInt n.toInt_lt).reads
      (by omega)

end Int

section Lengths

variable {j : Json} {len : ℕ}

theorem misses_length {tag : UInt8} {f : ℕ → Reader String Json} {bytes : List UInt8}
    (hread : readTagged texts (readValue texts) tag = word 4 >>= f)
    (hsize : ∀ n c c', (f n).run c = .ok (j, c') → len ≤ n) (hlong : ¬len < 2 ^ 32) :
    Misses (readValue texts) (tag :: bytes) j := by
  intro rest rest' heq
  rw [List.cons_append, readValue_cons, hread] at heq
  obtain ⟨n, hn, d, hf⟩ := word_run heq
  have hlen := hsize n _ _ hf
  omega

theorem reads_writeStr (s : String) :
    Reads ((utf8 s).length < 2 ^ 32) (readValue texts) (Pack.writeStr s) (.string s) := by
  by_cases hshort : (utf8 s).length ≤ 0xffff
  · rw [← Unpacking.writeString_eq hshort]
    exact (parses_writeString hshort).reads (by omega)
  · rw [Pack.writeStr, if_neg (by omega), if_neg (by omega), if_neg hshort]
    refine ⟨fun hfits ↦ ?_, fun hlong ↦ ?_⟩
    · exact parses_tagged (parses_length (k := 4) (Nat.lt_of_lt_of_eq hfits rfl) (parses_readStr s))
    · exact misses_length (f := readStr texts) rfl
        (fun _ _ _ hread ↦ (length_of_readStr hread).le) hlong

theorem run_packedArray {n : ℕ} (hn : n < 2 ^ 32) (rest : List UInt8) :
    (readValue texts).run (Pack.arrayHeader n ++ rest) = (readArr (readValue texts) n).run rest := by
  by_cases hshort : n ≤ 0xffff
  · rw [← Unpacking.arrayHeader_eq hshort, run_arrayHeader hshort]
  · rw [Pack.arrayHeader, if_neg (by omega), if_neg hshort, List.cons_append, readValue_cons]
    exact run_bind_ok (parses_word (k := 4) (Nat.lt_of_lt_of_eq hn rfl) rest)

theorem run_packedMap {n : ℕ} (hn : n < 2 ^ 32) (rest : List UInt8) :
    (readValue texts).run (Pack.mapHeader n ++ rest) =
      (readMap texts (readValue texts) n).run rest := by
  by_cases hshort : n ≤ 0xffff
  · rw [← Unpacking.objectHeader_eq hshort, run_objectHeader hshort]
  · rw [Pack.mapHeader, if_neg (by omega), if_neg hshort, List.cons_append, readValue_cons]
    exact run_bind_ok (parses_word (k := 4) (Nat.lt_of_lt_of_eq hn rfl) rest)

variable {good : Prop} {bytes : List UInt8}

theorem reads_array {items : List Json} (hn : items.length = len)
    (h : Reads good (repeatRead (readValue texts) len) bytes items) :
    Reads (len < 2 ^ 32 ∧ good) (readValue texts) (Pack.arrayHeader len ++ bytes) (.array items) := by
  by_cases hfits : len < 2 ^ 32
  · have harray := h.map (g := Json.array) (fun _ _ ↦ Json.array.inj)
    exact (harray.shift (run_packedArray hfits)).congr (and_iff_right hfits)
  · refine Misses.reads ?_ (fun hboth ↦ hfits hboth.1)
    rw [Pack.arrayHeader, if_neg (by omega), if_neg (by omega)]
    exact misses_length (f := readArr (readValue texts)) rfl
      (fun _ _ _ hread ↦ (hn.symm.trans (length_of_readArr hread)).le) hfits

/-- The reader makes a table of the entries, of which it may take others. -/
theorem reads_map {entries : List (String × Json)} (hn : (ofEntries entries).length = len)
    (h : Reads good (readMap texts (readValue texts) len) bytes (.object (ofEntries entries))) :
    Reads (len < 2 ^ 32 ∧ good) (readValue texts) (Pack.mapHeader len ++ bytes)
      (.object (ofEntries entries)) := by
  by_cases hfits : len < 2 ^ 32
  · exact (h.shift (run_packedMap hfits)).congr (and_iff_right hfits)
  · refine Misses.reads ?_ (fun hboth ↦ hfits hboth.1)
    rw [Pack.mapHeader, if_neg (by omega), if_neg (by omega)]
    exact misses_length (f := readMap texts (readValue texts)) rfl
      (fun _ _ _ hread ↦ hn.symm.le.trans (length_of_readMap hread)) hfits

end Lengths

section Keys

/-- What the reader gives: numbers are 64-bit words, and strings have a 32-bit length. -/
def bounded : Json → Prop
  | .number (.int n) => -2 ^ 63 ≤ n ∧ n < 2 ^ 64
  | .string s => (utf8 s).length < 2 ^ 32
  | _ => True

def Bounded (r : Reader String Json) : Prop := ∀ c j c', r.run c = .ok (j, c') → bounded j

theorem bounded_pure {j : Json} (h : bounded j) : Bounded (pure j) := by
  intro c j' c' heq
  cases heq
  exact h

theorem bounded_ofF64 (bits : BitVec 64) : bounded (ofF64 bits) := by
  unfold ofF64
  split_ifs <;> trivial

theorem bounded_word {k : ℕ} {f : ℕ → Reader String Json} (h : ∀ n < 256 ^ k, Bounded (f n)) :
    Bounded (word k >>= f) := by
  intro c j c' heq
  obtain ⟨n, hn, d, hf⟩ := word_run heq
  exact h n hn d j c' hf

theorem bounded_readStr {n : ℕ} (h : n < 2 ^ 32) : Bounded (readStr texts n) := by
  intro c j c' heq
  cases j with
  | string s => exact (length_of_readStr heq).trans_lt h
  | number x =>
    obtain ⟨bytes, d, -, hs⟩ := run_bind_eq_ok.mp heq
    cases hutf8 : ofUtf8 bytes <;> rw [hutf8] at hs <;> cases hs
  | _ => trivial

theorem bounded_readArr {read : Reader String Json} (n : ℕ) : Bounded (readArr read n) := by
  intro c j c' heq
  obtain ⟨items, d, -, hpure⟩ := run_bind_eq_ok.mp heq
  cases hpure
  trivial

theorem bounded_readMap {read : Reader String Json} (n : ℕ) : Bounded (readMap texts read n) := by
  intro c j c' heq
  obtain ⟨entries, d, -, hpure⟩ := run_bind_eq_ok.mp heq
  cases hpure
  trivial

theorem bounded_signed {w : ℕ} (hw : w ≤ 63) (n : ℕ) : bounded (.number (.int (signed (w + 1) n))) := by
  obtain ⟨hlo, hhi⟩ := signed_range w n
  have hpow : (2 : ℤ) ^ w ≤ 2 ^ 63 := pow_le_pow_right₀ (by decide) hw
  constructor <;> omega

theorem bounded_byte (b : UInt8) : bounded (.number (.int b.toNat)) := by
  have hb := b.toNat_lt
  constructor <;> omega

theorem bounded_peekByte : Bounded (do return .number (.int (← peekByte "truncated").toNat)) := by
  intro c j c' heq
  obtain ⟨b, d, -, hpure⟩ := run_bind_eq_ok.mp heq
  cases hpure
  exact bounded_byte b

theorem bounded_readTagged {read : Reader String Json} (tag : UInt8) :
    Bounded (readTagged texts read tag) := by
  have hmask : (tag &&& 0x1f).toNat < 2 ^ 32 := Nat.lt_trans (UInt8.toNat_lt _) (by decide)
  unfold readTagged
  split
  all_goals first
    | exact bounded_pure trivial
    | exact bounded_peekByte
    | exact bounded_word (fun n hn ↦ bounded_pure ⟨by omega, by omega⟩)
    | exact bounded_word (fun n _ ↦ bounded_pure (bounded_ofF64 _))
    | exact bounded_word (fun n _ ↦ bounded_pure (bounded_signed (by decide) n))
    | exact bounded_word (fun n hn ↦ bounded_readStr (by omega))
    | exact bounded_word (fun n _ ↦ bounded_readArr n)
    | exact bounded_word (fun n _ ↦ bounded_readMap n)
    | skip
  split_ifs
  · exact bounded_pure (bounded_byte tag)
  · exact bounded_pure (bounded_signed (by decide) _)
  · exact bounded_readStr hmask
  · exact bounded_readArr _
  · exact bounded_readMap _
  · intro c j c' heq
    cases heq

theorem bounded_readValue : Bounded (readValue texts) := by
  intro c j c' heq
  cases c with
  | nil => cases heq
  | cons tag c =>
    rw [readValue_cons] at heq
    exact bounded_readTagged tag c j c' heq

theorem length_of_readEntry (htexts : ∀ bits, (utf8 (texts.float bits)).length < 2 ^ 32)
    {e : String × Json} {c c' : List UInt8}
    (h : (readEntry texts (readValue texts)).run c = .ok (e, c')) : (utf8 e.1).length < 2 ^ 32 := by
  obtain ⟨k, d, hk, h⟩ := run_bind_eq_ok.mp h
  obtain ⟨v, d', -, h⟩ := run_bind_eq_ok.mp h
  have hbounded := bounded_readValue c k d hk
  cases k with
  | string s =>
    cases h
    exact hbounded
  | number n =>
    cases h
    cases n with
    | int n =>
      obtain ⟨hlo, hhi⟩ : -2 ^ 63 ≤ n ∧ n < 2 ^ 64 := hbounded
      have hlength := Foundation.Utf8.length_utf8_toString (i := n) (k := 20) (by decide) (by omega)
      change (utf8 (toString n)).length < 2 ^ 32
      omega
    | float bits => exact htexts bits
  | _ => cases h

end Keys

section Entries

def Mismatch (taken entries : List (String × Json)) : Prop :=
  ∃ e ∈ taken, ∃ e' ∈ entries, e.1 = e'.1 ∧ e.2 ≠ e'.2

theorem not_mismatch {taken entries : List (String × Json)}
    (hdistinct : (entries.map Prod.fst).Nodup) (hlength : taken.length = entries.length)
    (heq : Foundation.Ascending.ofEntries taken = Foundation.Ascending.ofEntries entries) :
    ¬Mismatch taken entries := by
  rintro ⟨e, he, e', he', hkey, hvalue⟩
  have hmem := mem_of_ofEntries_eq hdistinct heq hlength he
  exact hvalue (congrArg Prod.snd (List.inj_on_of_nodup_map hdistinct hmem he' hkey))

/-- Packing succeeds, and the reader takes the bytes for `v` exactly when all parts are kept. -/
def Packs (texts : Texts) (v : CfxValue) : Prop :=
  ∃ b, Pack.writeValue v = .ok b ∧ Reads (v.all kept = true) (readValue texts) b (toJson v)

theorem length_toItems (items : List CfxValue) : (toItems items).length = items.length := by
  induction items with
  | nil => rfl
  | cons v items ih => simp [toItems, ih]

theorem length_toEntries (entries : List (CfxValue × CfxValue)) :
    (toEntries entries).length = entries.length := by
  induction entries with
  | nil => rfl
  | cons e entries ih => simp [toEntries, ih]

theorem packs_items {items : List CfxValue} (h : ∀ v ∈ items, Packs texts v) :
    ∃ b, Pack.writeItems items = .ok b ∧
      Reads (∀ v ∈ items, v.all kept = true) (repeatRead (readValue texts) items.length) b
        (toItems items) := by
  induction items with
  | nil => exact ⟨[], rfl, (parses_pure []).reads (by simp)⟩
  | cons v vs ih =>
    obtain ⟨⟨b, hb, hread⟩, hvs⟩ := List.forall_mem_cons.mp h
    obtain ⟨bs, hbs, hreads⟩ := ih hvs
    refine ⟨b ++ bs, by rw [Pack.writeItems, hb, hbs]; rfl, ?_⟩
    exact (hread.cons hreads).congr List.forall_mem_cons

variable {entries : List (CfxValue × CfxValue)}

/-- Between keys that fit, the first value that is not taken as it is shows in the entries. -/
theorem packs_entries (hkeys : ∀ e ∈ entries, ∃ s, e.1 = .str s)
    (h : ∀ e ∈ entries, Packs texts e.2) :
    ∃ b, Pack.writeEntries entries = .ok b ∧
      ((∀ e ∈ entries, e.1.all kept = true) →
        ((∀ e ∈ entries, e.2.all kept = true) →
          Parses (repeatRead (readEntry texts (readValue texts)) entries.length) b
            (toEntries entries)) ∧
        (¬(∀ e ∈ entries, e.2.all kept = true) → ∀ rest taken rest',
          (repeatRead (readEntry texts (readValue texts)) entries.length).run (b ++ rest) =
            .ok (taken, rest') → Mismatch taken (toEntries entries))) := by
  induction entries with
  | nil => exact ⟨[], rfl, fun _ ↦ ⟨fun _ ↦ parses_pure [], fun hbad ↦ absurd (by simp) hbad⟩⟩
  | cons e entries ih =>
    obtain ⟨k, v⟩ := e
    obtain ⟨⟨s, rfl⟩, hmore⟩ := List.forall_mem_cons.mp hkeys
    obtain ⟨⟨bv, hbv, hvalue⟩, hentries⟩ := List.forall_mem_cons.mp h
    obtain ⟨bs, hbs, hrest⟩ := ih hmore hentries
    refine ⟨(Pack.writeStr s ++ bv) ++ bs, ?_, fun hshort ↦ ?_⟩
    · simp only [Pack.writeEntries, Pack.writeValue, hbv, hbs]
      rfl
    obtain ⟨hs, hshort⟩ := List.forall_mem_cons.mp hshort
    obtain ⟨hparse, hmiss⟩ := hrest hshort
    have hkey : Parses (readValue texts) (Pack.writeStr s) (.string s) :=
      (reads_writeStr s).1 (of_decide_eq_true hs)
    refine ⟨fun hgood ↦ ?_, fun hbad rest taken rest' hrun ↦ ?_⟩
    · obtain ⟨hv, hvs⟩ := List.forall_mem_cons.mp hgood
      exact (parses_entry hkey (hvalue.1 hv)).bind ((hparse hvs).map ((s, toJson v) :: ·))
    · rw [List.append_assoc, List.append_assoc] at hrun
      obtain ⟨e, d, he, hrun⟩ := run_bind_eq_ok.mp hrun
      obtain ⟨l, d', hl, hpure⟩ := run_bind_eq_ok.mp hrun
      cases hpure
      rw [readEntry, run_bind_ok (hkey _)] at he
      obtain ⟨j, d'', hj, he⟩ := run_bind_eq_ok.mp he
      cases he
      by_cases hv : v.all kept = true
      · -- the value is taken as it is, so that another one is not
        rw [hvalue.1 hv] at hj
        cases hj
        have htail : ¬∀ e ∈ entries, e.2.all kept = true :=
          fun hvs ↦ hbad (List.forall_mem_cons.mpr ⟨hv, hvs⟩)
        obtain ⟨e, he, e', he', hsame⟩ := hmiss htail rest l _ hl
        exact ⟨e, List.mem_cons_of_mem _ he, e', List.mem_cons_of_mem _ he', hsame⟩
      · refine ⟨(s, j), List.mem_cons_self, (s, toJson v), List.mem_cons_self, rfl, ?_⟩
        intro (heq : j = toJson v)
        subst heq
        exact hvalue.2 hv _ _ hj

theorem map_some_keys (h : ∀ e ∈ entries, ∃ s, e.1 = .str s) :
    ((toEntries entries).map Prod.fst).map some = entries.map (key ·.1) := by
  induction entries with
  | nil => rfl
  | cons e entries ih =>
    obtain ⟨k, v⟩ := e
    obtain ⟨⟨s, rfl⟩, hentries⟩ := List.forall_mem_cons.mp h
    simp only [toEntries, List.map_cons, ih hentries]
    rfl

theorem misses_long (htexts : ∀ bits, (utf8 (texts.float bits)).length < 2 ^ 32)
    {table : List (String × Json)} {n : ℕ} {bytes : List UInt8}
    (h : ∃ s ∈ table.map Prod.fst, ¬(utf8 s).length < 2 ^ 32) :
    Misses (readMap texts (readValue texts) n) bytes
      (.object (Foundation.Ascending.ofEntries table)) := by
  intro rest rest' heq
  rw [readMap_eq, ← bind_pure_comp] at heq
  obtain ⟨taken, d, htaken, hpure⟩ := run_bind_eq_ok.mp heq
  have htable : Foundation.Ascending.ofEntries taken = Foundation.Ascending.ofEntries table :=
    Json.object.inj (congrArg Prod.fst (Except.ok.inj hpure))
  obtain ⟨s, hs, hlong⟩ := h
  rw [← mem_keys_ofEntries, ← htable, mem_keys_ofEntries] at hs
  obtain ⟨e, he, rfl⟩ := List.mem_map.mp hs
  exact hlong (forall_of_repeatRead (fun _ _ _ ↦ length_of_readEntry htexts) htaken e he)

theorem packs_map (htexts : ∀ bits, (utf8 (texts.float bits)).length < 2 ^ 32)
    (hplain : plain (.map entries) = true) (h : ∀ e ∈ entries, Packs texts e.2) :
    Packs texts (.map entries) := by
  obtain ⟨hnames, hnodup⟩ := of_decide_eq_true hplain
  have hkeys : ∀ e ∈ entries, ∃ s, e.1 = .str s := by
    intro e he
    have hsome := List.all_eq_true.mp hnames e he
    cases hk : e.1 <;> simp_all [key]
  have hdistinct : ((toEntries entries).map Prod.fst).Nodup := by
    rw [← map_some_keys hkeys] at hnodup
    exact hnodup.of_map some
  obtain ⟨b, hb, hentries⟩ := packs_entries hkeys h
  have hlength := (length_ofEntries_eq_iff.mpr hdistinct).trans (length_toEntries entries)
  have hall : (CfxValue.map entries).all kept = true ↔ entries.length < 2 ^ 32 ∧
      ∀ e ∈ entries, e.1.all kept = true ∧ e.2.all kept = true := by
    rw [CfxValue.all_map, kept, decide_eq_true_iff]
  refine ⟨Pack.mapHeader entries.length ++ b, by rw [Pack.writeValue, hb]; rfl, ?_⟩
  refine (reads_map hlength ⟨fun hgood ↦ ?_, fun hbad ↦ ?_⟩).congr hall
  · obtain ⟨hparse, -⟩ := hentries (fun e he ↦ (hgood e he).1)
    rw [readMap_eq]
    exact (hparse (fun e he ↦ (hgood e he).2)).map
      (fun entries ↦ Json.object (Foundation.Ascending.ofEntries entries))
  by_cases hshort : ∀ e ∈ entries, e.1.all kept = true
  · obtain ⟨-, hmiss⟩ := hentries hshort
    have hvalues : ¬∀ e ∈ entries, e.2.all kept = true :=
      fun hvalues ↦ hbad (fun e he ↦ ⟨hshort e he, hvalues e he⟩)
    intro rest rest' heq
    rw [readMap_eq, ← bind_pure_comp] at heq
    obtain ⟨taken, d, htaken, hpure⟩ := run_bind_eq_ok.mp heq
    have htable : Foundation.Ascending.ofEntries taken =
        Foundation.Ascending.ofEntries (toEntries entries) :=
      Json.object.inj (congrArg Prod.fst (Except.ok.inj hpure))
    have hsize := (length_of_repeatRead htaken).trans (length_toEntries entries).symm
    exact not_mismatch hdistinct hsize htable (hmiss hvalues rest taken d htaken)
  · apply misses_long htexts
    obtain ⟨e, he, hlong⟩ : ∃ e ∈ entries, ¬e.1.all kept = true := by
      by_contra hnone
      exact hshort (fun e he ↦ by_contra fun hlong ↦ hnone ⟨e, he, hlong⟩)
    obtain ⟨s, hs⟩ := hkeys e he
    have hkey : some s ∈ ((toEntries entries).map Prod.fst).map some := by
      rw [map_some_keys hkeys]
      exact List.mem_map.mpr ⟨e, he, by rw [hs]; rfl⟩
    obtain ⟨s, hmem, hsome⟩ := List.mem_map.mp hkey
    cases hsome
    refine ⟨s, hmem, fun hlength ↦ hlong ?_⟩
    rw [hs]
    exact decide_eq_true hlength

theorem packs_leaf {v : CfxValue} {b : List UInt8} (hwrite : Pack.writeValue v = .ok b)
    (hall : v.all kept = true) (h : Parses (readValue texts) b (toJson v)) : Packs texts v :=
  ⟨b, hwrite, h.reads hall⟩

theorem packs_float (bits : BitVec 64) : Packs texts (.float bits) := by
  have hread : Parses (readValue texts) (0xcb :: toBE 8 bits.toNat) (ofF64 bits) := by
    have hword := (parses_word (k := 8) bits.isLt).map (fun n ↦ ofF64 (.ofNat 64 n))
    rw [BitVec.ofNat_toNat, BitVec.setWidth_eq] at hword
    exact parses_tagged hword
  refine ⟨_, rfl, ?_⟩
  by_cases hfinite : finite bits = true
  · rw [ofF64, if_pos hfinite] at hread
    exact hread.reads hfinite
  · rw [ofF64, if_neg hfinite] at hread
    exact (hread.misses Json.noConfusion).reads hfinite

/-- Outside the integers that are not moved behind, the bridge takes what `pack` writes exactly when
all parts are kept. -/
theorem packs (htexts : ∀ bits, (utf8 (texts.float bits)).length < 2 ^ 32) (v : CfxValue)
    (hplain : v.all plain = true) (h : v.all unpeeked = true) : Packs texts v := by
  induction v using CfxValue.induct with
  | array items ih =>
    obtain ⟨-, hitems⟩ := CfxValue.all_array.mp hplain
    obtain ⟨-, hunpeeked⟩ := CfxValue.all_array.mp h
    obtain ⟨b, hb, hread⟩ := packs_items (fun v hv ↦ ih v hv (hitems v hv) (hunpeeked v hv))
    have hall : (CfxValue.array items).all kept = true ↔ items.length < 2 ^ 32 ∧
        ∀ v ∈ items, v.all kept = true := by
      rw [CfxValue.all_array, kept, decide_eq_true_iff]
    exact ⟨Pack.arrayHeader items.length ++ b, by rw [Pack.writeValue, hb]; rfl,
      (reads_array (length_toItems items) hread).congr hall⟩
  | map entries ih =>
    obtain ⟨hself, hentries⟩ := CfxValue.all_map.mp hplain
    obtain ⟨-, hunpeeked⟩ := CfxValue.all_map.mp h
    exact packs_map htexts hself
      (fun e he ↦ (ih e he).2 (hentries e he).2 (hunpeeked e he).2)
  | leaf v harray hmap =>
    cases v with
    | nil => exact packs_leaf rfl rfl (parses_tagged (parses_pure _))
    | bool b => cases b <;> exact packs_leaf rfl rfl (parses_tagged (parses_pure _))
    | int n =>
      refine ⟨_, rfl, (reads_writeInt (of_decide_eq_true h)).congr ?_⟩
      exact decide_eq_true_iff
    | float bits => exact packs_float bits
    | str s => exact ⟨_, rfl, (reads_writeStr s).congr decide_eq_true_iff⟩
    | array items => exact absurd rfl (harray items)
    | map entries => exact absurd rfl (hmap entries)
    | _ => cases hplain

end Entries

section Peeked

def isA : Except String (Json × List UInt8) → Bool
  | .ok (.string s, _) => s = "a"
  | _ => false

/-- No tag from 128 on makes the string "a" of its own bytes. -/
theorem not_isA (texts : Texts) {b : UInt8} (h : 128 ≤ b.toNat) :
    isA ((readTagged texts (readValue texts) b).run [0xa1, 0x61]) = false := by
  have hall : (List.range 128).all (fun k ↦
      !isA ((readTagged texts (readValue texts) (UInt8.ofNat (128 + k))).run [0xa1, 0x61])) =
        true := rfl
  have hlt := b.toNat_lt
  have hb : UInt8.ofNat (128 + (b.toNat - 128)) = b := by
    rw [Nat.add_sub_cancel' h, UInt8.ofNat_toNat]
  have hk := List.all_eq_true.mp hall (b.toNat - 128) (List.mem_range.mpr (by omega))
  rw [hb] at hk
  simpa using hk

end Peeked

section Interoperation

def Bridged (texts : Texts) (v : CfxValue) : Prop :=
  ∃ b, Pack.pack v = .ok b ∧ msgpackToJson texts b = .ok (toJson v)

theorem msgpackToJson_eq_ok_iff {b : List UInt8} {j : Json} :
    msgpackToJson texts b = .ok j ↔ ∃ rest, (readValue texts).run b = .ok (j, rest) := by
  unfold msgpackToJson
  cases (readValue texts).run b with
  | error e => simp [bind, Except.bind]
  | ok x =>
    obtain ⟨k, rest⟩ := x
    simp [bind, Except.bind, pure, Except.pure]

theorem bridged_iff (htexts : ∀ bits, (utf8 (texts.float bits)).length < 2 ^ 32) (v : CfxValue)
    (hplain : v.all plain = true) (h : v.all unpeeked = true) :
    Bridged texts v ↔ v.all kept = true := by
  obtain ⟨b, hb, hreads⟩ := packs htexts v hplain h
  constructor
  · intro hrun
    obtain ⟨b', hb', hjson⟩ := hrun
    obtain rfl := Except.ok.inj (hb.symm.trans hb')
    obtain ⟨rest, hrest⟩ := msgpackToJson_eq_ok_iff.mp hjson
    by_contra hbad
    exact hreads.2 hbad [] rest (by rwa [List.append_nil])
  · intro hkept
    have hrun := hreads.1 hkept []
    rw [List.append_nil] at hrun
    exact ⟨b, hb, msgpackToJson_eq_ok_iff.mpr ⟨[], hrun⟩⟩

/-- A byte that is not moved behind is taken for the tag of what follows. -/
theorem not_bridged (texts : Texts) {n : BitVec 64} (h : 128 ≤ n.toInt ∧ n.toInt ≤ 255) :
    ¬Bridged texts (.array [.int n, .str "a"]) := by
  rintro ⟨b, hb, hjson⟩
  have hpos := toNat_of_nonneg (n := n) (by omega)
  have hint : Pack.writeInt n = [0xCC, UInt8.ofNat n.toNat] := by
    unfold Pack.writeInt
    dsimp only
    rw [if_neg (by omega), if_pos (by omega)]
  have hbytes : b = [0x92, 0xCC, UInt8.ofNat n.toNat, 0xa1, 0x61] := by
    have hheader : Pack.arrayHeader 2 = [0x92] := rfl
    have hstr : Pack.writeStr "a" = [0xa1, 0x61] := rfl
    simp only [Pack.pack, Pack.writeValue, Pack.writeItems, hint, hstr, List.length_cons,
      List.length_nil, hheader] at hb
    exact (Except.ok.inj hb).symm
  subst hbytes
  obtain ⟨rest, hrun⟩ := msgpackToJson_eq_ok_iff.mp hjson
  rw [readValue_cons] at hrun
  obtain ⟨items, d, hitems, hpure⟩ := run_bind_eq_ok.mp hrun
  obtain ⟨x, d, hx, hitems⟩ := run_bind_eq_ok.mp hitems
  rw [readValue_cons] at hx
  cases hx
  obtain ⟨items, d, hitems, hcons⟩ := run_bind_eq_ok.mp hitems
  obtain ⟨y, d, hy, hitems⟩ := run_bind_eq_ok.mp hitems
  cases hitems
  cases hcons
  have hvalue : y = .string "a" := by
    have hitems := Json.array.inj (congrArg Prod.fst (Except.ok.inj hpure))
    exact (List.cons.inj (List.cons.inj hitems).2).1
  have hnot := not_isA texts (b := UInt8.ofNat n.toNat) (by rw [UInt8.toNat_ofNat']; omega)
  rw [readValue_cons] at hy
  rw [hy, hvalue] at hnot
  cases hnot

/-- Bytes of the bridge are unpacked to the value they stand for exactly when all parts are whole.
Bytes of `pack` are read to the JSON value they stand for exactly when all parts are kept, apart from
the integers that are not moved behind, each of which is misread before another value. -/
theorem interoperate_iff (texts : Texts)
    (htexts : ∀ bits, (utf8 (texts.float bits)).length < 2 ^ 32) :
    (∀ j, (∀ x ∈ j.parts, Unpacking.inRange x) →
      (Unpacking.Unpacked j ↔ ∀ x ∈ j.parts, Unpacking.whole x)) ∧
    (∀ v : CfxValue, v.all plain = true → v.all unpeeked = true →
      (Bridged texts v ↔ v.all kept = true)) ∧
    ∀ n : BitVec 64, 128 ≤ n.toInt ∧ n.toInt ≤ 255 →
      ¬Bridged texts (.array [.int n, .str "a"]) :=
  ⟨Unpacking.unpacked_iff, bridged_iff htexts, fun _ ↦ not_bridged texts⟩

theorem vehicle_interoperates :
    Unpacking.Unpacked (.object [("fuel", .array [.number (.int 40000), .null])]) ∧
      Bridged noTexts (.map [(.str "hp", .array [.int (-300), .nil]), (.str "fuel", .bool true)]) ∧
      ¬Bridged noTexts (.array [.int 200, .str "a"]) := by
  obtain ⟨hunpacked, hbridged, hpeeked⟩ := interoperate_iff noTexts (fun _ ↦ Nat.two_pow_pos 32)
  refine ⟨(hunpacked _ ?_).mpr ?_, (hbridged _ (by decide) (by decide)).mpr (by decide),
    hpeeked 200 (by decide)⟩
  · simp [Json.parts, Json.partsEntries, Json.partsItems, Unpacking.inRange]
  · simp [Json.parts, Json.partsEntries, Json.partsItems, Unpacking.whole, utf8]
    decide

/-- The bridge writes 70000 without its high byte, and reads 256 from the zeros before it. -/
theorem int70000_int256_lost :
    (Unpacking.inRange (.number (.int 70000)) ∧
      jsonToMsgpack (.number (.int 70000)) = .ok [0xcd, 0x11, 0x70] ∧
      Unpack.unpack [0xcd, 0x11, 0x70] = .ok (.int 4464) ∧
      ¬Unpacking.Unpacked (.number (.int 70000))) ∧
    (CfxValue.int 256).all plain = true ∧
      Pack.pack (.int 256) = .ok [0xCD, 0, 0, 0, 0, 0, 0, 1, 0] ∧
      msgpackToJson noTexts [0xCD, 0, 0, 0, 0, 0, 0, 1, 0] = .ok (.number (.int 0)) ∧
      ¬Bridged noTexts (.int 256) := by
  have hunpack : Unpack.unpack [0xcd, 0x11, 0x70] = .ok (.int 4464) := rfl
  have hread : msgpackToJson noTexts [0xCD, 0, 0, 0, 0, 0, 0, 1, 0] = .ok (.number (.int 0)) := rfl
  refine ⟨⟨⟨by decide, by decide⟩, rfl, hunpack, ?_⟩, rfl, rfl, hread, ?_⟩
  · rintro ⟨b, hb, hjson⟩
    cases hb
    exact absurd (CfxValue.int.inj (Except.ok.inj (hunpack.symm.trans hjson))) (by decide)
  · rintro ⟨b, hb, hjson⟩
    cases hb
    have hnumber := Number.int.inj (Json.number.inj (Except.ok.inj (hread.symm.trans hjson)))
    exact absurd hnumber (by decide)

end Interoperation

end Aldivine.CfxLua.Packing
