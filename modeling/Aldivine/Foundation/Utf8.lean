import Aldivine.Foundation.Pieces
import Aldivine.Foundation.Text
import Mathlib.Algebra.Order.Ring.Nat

namespace Aldivine.Foundation.Utf8

open Pieces Text

/-- `b as char`: the byte is taken for the code of a character. -/
def asChar (b : UInt8) : Char := Char.ofNat b.toNat

theorem toNat_asChar (b : UInt8) : (asChar b).toNat = b.toNat := by
  have hlt := b.toNat_lt
  have hvalid : b.toNat.isValidChar := .inl (by omega)
  rw [asChar, Char.ofNat, dif_pos hvalid]
  rfl

theorem byte_ne_of_high {a b : UInt8} (hb : 128 ≤ b.toNat) (ha : a.toNat < 128) : b ≠ a := by
  intro heq
  rw [heq] at hb
  omega

theorem char_ne_of_high {c d : Char} (hc : ¬c.toNat < 128) (hd : d.toNat < 128) : c ≠ d :=
  fun heq ↦ hc (heq ▸ hd)

def encode (text : List Char) : List UInt8 := text.flatMap String.utf8EncodeChar

theorem utf8_ofList (text : List Char) : utf8 (String.ofList text) = encode text := by
  simp [utf8, encode, List.utf8Encode]

theorem utf8_eq_encode (s : String) : utf8 s = encode s.toList := by
  rw [← utf8_ofList, String.ofList_toList]

theorem encode_injective : Function.Injective encode := by
  intro first second h
  rw [← utf8_ofList, ← utf8_ofList] at h
  exact String.ofList_injective (utf8_injective h)

theorem ofUtf8_encode (text : List Char) : ofUtf8 (encode text) = some (String.ofList text) := by
  rw [← utf8_ofList, ofUtf8_utf8]

@[simp] theorem encode_nil : encode [] = [] := rfl

@[simp] theorem encode_cons (c : Char) (text : List Char) :
    encode (c :: text) = String.utf8EncodeChar c ++ encode text := rfl

@[simp] theorem encode_append (first second : List Char) :
    encode (first ++ second) = encode first ++ encode second := List.flatMap_append

section Lengths

theorem length_encode_le (text : List Char) : (encode text).length ≤ 4 * text.length := by
  induction text with
  | nil => exact le_rfl
  | cons c text ih =>
    have hc := c.utf8Size_le_four
    rw [encode_cons, List.length_append, String.length_utf8EncodeChar, List.length_cons]
    omega

theorem length_utf8_repr {n k : ℕ} (hk : 0 < k) (h : n < 10 ^ k) :
    (utf8 n.repr).length ≤ 4 * k := by
  have hdigits := (Nat.length_toDigits_le_iff (b := 10) (by decide) hk).mpr h
  rw [Nat.repr_eq_ofList_toDigits, utf8_ofList]
  exact (length_encode_le _).trans (Nat.mul_le_mul_left 4 hdigits)

theorem length_utf8_toString {i : ℤ} {k : ℕ} (hk : 0 < k) (h : i.natAbs < 10 ^ k) :
    (utf8 (toString i)).length ≤ 4 * k + 1 := by
  rw [Int.toString_eq_repr, Int.repr_eq_if]
  split_ifs
  · exact (length_utf8_repr hk (by omega)).trans (Nat.le_succ _)
  · have hrepr := length_utf8_repr (n := (-i).toNat) hk (by omega)
    rw [utf8_append, List.length_append]
    change 1 + _ ≤ _
    omega

end Lengths

section Characters

variable {c : Char}

theorem encodeChar_ascii (h : c.toNat < 128) :
    String.utf8EncodeChar c = [UInt8.ofNat c.toNat] :=
  if_pos (Nat.le_of_lt_succ h)

theorem encodeChar_high (h : 128 ≤ c.toNat) :
    (∀ b ∈ String.utf8EncodeChar c, 128 ≤ b.toNat) ∧ 1 < (String.utf8EncodeChar c).length := by
  have hnot : ¬c.val.toNat ≤ 0x7f := Nat.not_le.mpr h
  have hbyte (n : ℕ) (hlow : 128 ≤ n) (hlt : n < 256) : 128 ≤ (UInt8.ofNat n).toNat := by
    rwa [UInt8.toNat_ofNat', Nat.mod_eq_of_lt hlt]
  unfold String.utf8EncodeChar
  dsimp only
  rw [if_neg hnot]
  split
  · refine ⟨?_, Nat.lt_succ_self 1⟩
    rw [List.forall_mem_cons, List.forall_mem_singleton]
    exact ⟨hbyte _ (by omega) (by omega), hbyte _ (by omega) (by omega)⟩
  split
  · refine ⟨?_, Nat.lt_add_of_pos_left Nat.two_pos⟩
    rw [List.forall_mem_cons, List.forall_mem_cons, List.forall_mem_singleton]
    exact ⟨hbyte _ (by omega) (by omega), hbyte _ (by omega) (by omega),
      hbyte _ (by omega) (by omega)⟩
  · refine ⟨?_, Nat.lt_add_of_pos_left (Nat.succ_pos 2)⟩
    rw [List.forall_mem_cons, List.forall_mem_cons, List.forall_mem_cons,
      List.forall_mem_singleton]
    exact ⟨hbyte _ (by omega) (by omega), hbyte _ (by omega) (by omega),
      hbyte _ (by omega) (by omega), hbyte _ (by omega) (by omega)⟩

theorem asChar_ofNat (h : c.toNat < 128) : asChar (UInt8.ofNat c.toNat) = c := by
  rw [asChar, UInt8.toNat_ofNat', Nat.mod_eq_of_lt (by omega), Char.ofNat_toNat]

theorem ofNat_eq_iff {d : Char} (hc : c.toNat < 128) (hd : d.toNat < 128) :
    UInt8.ofNat c.toNat = UInt8.ofNat d.toNat ↔ c = d := by
  constructor
  · intro h
    rw [← asChar_ofNat hc, h, asChar_ofNat hd]
  · intro h
    rw [h]

theorem mem_encodeChar {d : Char} (hd : d.toNat < 128) :
    UInt8.ofNat d.toNat ∈ String.utf8EncodeChar c ↔ c = d := by
  by_cases hc : c.toNat < 128
  · rw [encodeChar_ascii hc, List.mem_singleton, ofNat_eq_iff hd hc, eq_comm]
  · refine iff_of_false (fun hmem ↦ ?_) (char_ne_of_high hc hd)
    have hhigh := (encodeChar_high (Nat.le_of_not_lt hc)).1 _ hmem
    rw [UInt8.toNat_ofNat', Nat.mod_eq_of_lt (by omega)] at hhigh
    omega

end Characters

/-- Text read byte by byte is the same exactly when it is ASCII. -/
theorem asChar_encode_iff (text : List Char) :
    (encode text).map asChar = text ↔ ∀ c ∈ text, c.toNat < 128 := by
  have hbytes : (encode text).map asChar =
      text.flatMap (fun c ↦ (String.utf8EncodeChar c).map asChar) := List.map_flatMap ..
  have hne (c : Char) (_ : c ∈ text) : (String.utf8EncodeChar c).map asChar ≠ [] :=
    List.map_eq_nil_iff.not.mpr String.utf8EncodeChar_ne_nil
  have hiff := @flatMap_eq_map_iff _ _ _ id _ hne
  rw [List.map_id, ← hbytes] at hiff
  rw [hiff]
  refine forall₂_congr (fun c _ ↦ ?_)
  constructor
  · intro h
    by_contra hc
    have hmany := (encodeChar_high (Nat.le_of_not_lt hc)).2
    have hlen := congrArg List.length h
    rw [List.length_map, List.length_singleton] at hlen
    omega
  · intro hc
    rw [encodeChar_ascii hc, List.map_singleton, asChar_ofNat hc, id]

section Scanning

variable {p : UInt8 → Bool} {high : Bool}

/-- What a scan that treats all bytes outside ASCII alike says about a character. -/
def onChar (p : UInt8 → Bool) (high : Bool) (c : Char) : Bool :=
  if c.toNat < 128 then p (UInt8.ofNat c.toNat) else high

theorem encodeChar_onChar (hp : ∀ b : UInt8, 128 ≤ b.toNat → p b = high) (c : Char) :
    ∀ b ∈ String.utf8EncodeChar c, p b = onChar p high c := by
  unfold onChar
  split
  · rename_i hc
    rw [encodeChar_ascii hc, List.forall_mem_singleton]
  · rename_i hc
    exact fun b hb ↦ hp b ((encodeChar_high (Nat.le_of_not_lt hc)).1 b hb)

theorem takeWhile_encode (hp : ∀ b : UInt8, 128 ≤ b.toNat → p b = high) (text : List Char) :
    (encode text).takeWhile p = encode (text.takeWhile (onChar p high)) := by
  induction text with
  | nil => rfl
  | cons c text ih =>
    have hbytes := encodeChar_onChar hp c
    rw [encode_cons]
    cases hc : onChar p high c with
    | true =>
      rw [List.takeWhile_append_of_pos (fun b hb ↦ (hbytes b hb).trans hc), ih,
        List.takeWhile_cons_of_pos hc, encode_cons]
    | false =>
      obtain ⟨b, rest, hb⟩ := List.exists_cons_of_ne_nil (@String.utf8EncodeChar_ne_nil c)
      have hfirst : p b = false := (hbytes b (hb ▸ List.mem_cons_self)).trans hc
      rw [hb, List.cons_append, List.takeWhile_cons_of_neg (by simp [hfirst]),
        List.takeWhile_cons_of_neg (by simp [hc]), encode_nil]

theorem dropWhile_encode (hp : ∀ b : UInt8, 128 ≤ b.toNat → p b = high) (text : List Char) :
    (encode text).dropWhile p = encode (text.dropWhile (onChar p high)) := by
  have hwhole : encode (text.takeWhile (onChar p high)) ++ (encode text).dropWhile p =
      encode (text.takeWhile (onChar p high)) ++ encode (text.dropWhile (onChar p high)) := by
    rw [← encode_append, List.takeWhile_append_dropWhile, ← takeWhile_encode hp,
      List.takeWhile_append_dropWhile]
  exact List.append_cancel_left hwhole

end Scanning

section Lossy

def inRangeAt (bytes : List UInt8) (i : ℕ) (lo hi : UInt8) : Bool :=
  match bytes[i]? with
  | some b => decide (lo ≤ b) && decide (b ≤ hi)
  | none => false

/-- The bounds of the byte behind a first byte of three or four. -/
def secondBounds (first : UInt8) : UInt8 × UInt8 :=
  if first = 0xE0 then (0xA0, 0xBF)
  else if first = 0xED then (0x80, 0x9F)
  else if first = 0xF0 then (0x90, 0xBF)
  else if first = 0xF4 then (0x80, 0x8F)
  else (0x80, 0xBF)

/-- How many bytes the first character takes and `true`, or how many bytes go before one goes wrong
and `false`. -/
def firstChunk (bytes : List UInt8) : ℕ × Bool :=
  match bytes with
  | [] => (0, true)
  | first :: _ =>
    let (lo, hi) := secondBounds first
    if first < 0x80 then (1, true)
    else if 0xC2 ≤ first ∧ first ≤ 0xDF then
      if inRangeAt bytes 1 0x80 0xBF then (2, true) else (1, false)
    else if 0xE0 ≤ first ∧ first ≤ 0xEF then
      if !inRangeAt bytes 1 lo hi then (1, false)
      else if inRangeAt bytes 2 0x80 0xBF then (3, true)
      else (2, false)
    else if 0xF0 ≤ first ∧ first ≤ 0xF4 then
      if !inRangeAt bytes 1 lo hi then (1, false)
      else if !inRangeAt bytes 2 0x80 0xBF then (2, false)
      else if inRangeAt bytes 3 0x80 0xBF then (4, true)
      else (3, false)
    else (1, false)

/-- Every chunk takes a byte, so `fuel` may be the number of bytes. -/
def lossyChars : ℕ → List UInt8 → List Char
  | 0, _ => []
  | fuel + 1, bytes =>
    if bytes.isEmpty then []
    else
      let (k, good) := firstChunk bytes
      let text := if good then (ofUtf8 (bytes.take k)).map String.toList else none
      text.getD [Char.ofNat 0xFFFD] ++ lossyChars fuel (bytes.drop k)

def utf8Lossy (bytes : List UInt8) : String := String.ofList (lossyChars bytes.length bytes)

end Lossy

end Aldivine.Foundation.Utf8
