import Aldivine.Foundation.BitStrings
import Aldivine.Foundation.Text
import Mathlib.Data.List.Induction

namespace Aldivine.Aegis.Totp

open Foundation.BitStrings Foundation.Text

def alphabet : List Char :=
  ['A', 'B', 'C', 'D', 'E', 'F', 'G', 'H', 'I', 'J', 'K', 'L', 'M', 'N', 'O', 'P',
    'Q', 'R', 'S', 'T', 'U', 'V', 'W', 'X', 'Y', 'Z', '2', '3', '4', '5', '6', '7']

theorem mod_lt_alphabet (n : ℕ) : n % 32 < alphabet.length := Nat.mod_lt n (by decide)

def letter (n : ℕ) : Char := alphabet.get ⟨n % 32, mod_lt_alphabet n⟩

/-- The shift register of both directions: its `bits` low bits are pending. -/
structure Register (ο : Type) where
  buffer : BitVec 32
  bits : ℕ
  out : List ο

/-- `while bits >= 5`: the letters written, and how many bits are left. -/
def drain (buffer : BitVec 32) : ℕ → List Char × ℕ
  | bits + 5 =>
    let rest := drain buffer bits
    (letter ((buffer >>> bits) &&& 0x1f).toNat :: rest.1, rest.2)
  | bits => ([], bits)

def encodeByte (r : Register Char) (b : UInt8) : Register Char :=
  let buffer := (r.buffer <<< 8) ||| BitVec.ofNat 32 b.toNat
  let drained := drain buffer (r.bits + 8)
  ⟨buffer, drained.2, r.out ++ drained.1⟩

def encodeBytes (bytes : List UInt8) : Register Char := bytes.foldl encodeByte ⟨0, 0, []⟩

def base32Encode (bytes : List UInt8) : String :=
  let r := encodeBytes bytes
  String.ofList (r.out ++
    if 0 < r.bits then [letter ((r.buffer <<< (5 - r.bits)) &&& 0x1f).toNat] else [])

def decodeChar (r : Register UInt8) (ch : Char) : Option (Register UInt8) := do
  let val ← alphabet.findIdx? (fun a ↦ a == ch.toUpper)
  let buffer := (r.buffer <<< 5) ||| BitVec.ofNat 32 val
  let bits := r.bits + 5
  if 8 ≤ bits then
    return ⟨buffer, bits - 8, r.out ++ [UInt8.ofNat (buffer >>> (bits - 8)).toNat]⟩
  else
    return ⟨buffer, bits, r.out⟩

def significant (s : String) : List Char := s.toList.filter (fun c ↦ !isWhitespace c && c != '=')

def base32Decode (s : String) : Option (List UInt8) := do
  let r ← (significant s).foldlM decodeChar ⟨0, 0, []⟩
  return r.out

/-- Bits in groups of five, the last one filled up with zeros. -/
def quintets : List Bool → List (List Bool)
  | b₀ :: b₁ :: b₂ :: b₃ :: b₄ :: bits => [b₀, b₁, b₂, b₃, b₄] :: quintets bits
  | [] => []
  | bits => [bits ++ List.replicate (5 - bits.length) false]

def spell (bits : List Bool) : List Char := (quintets bits).map (fun q ↦ letter (ofBits q))

/-- The base32 encoding of RFC 4648, without padding. -/
def rfc4648 (bytes : List UInt8) : String := String.ofList (spell (bitsOf bytes))

/-- The text is an encoding with white space and equal signs inserted, in any case. -/
def Spells (s code : String) : Prop := (significant s).map Char.toUpper = code.toList

instance (s code : String) : Decidable (Spells s code) := inferInstanceAs (Decidable (_ = _))

/-- The low bits of the register are those of the bytes that no letter has been written for. -/
structure Pending (bytes : List UInt8) (r : Register Char) : Prop where
  bits_lt : r.bits < 5
  split : ∃ written, bitsOf bytes = written ++ toBits r.bits r.buffer.toNat ∧
    written.length = 5 * r.out.length ∧ spell written = r.out

variable {bits more written q : List Bool} {bytes : List UInt8} {B : BitVec 32} {k n v : ℕ}

section Groups

theorem spell_cons (h : q.length = 5) (bits : List Bool) :
    spell (q ++ bits) = letter (ofBits q) :: spell bits := by
  match q, h with
  | [b₀, b₁, b₂, b₃, b₄], _ => rfl

theorem spell_append (h : written.length = 5 * n) (more : List Bool) :
    spell (written ++ more) = spell written ++ spell more := by
  induction n generalizing written with
  | zero =>
    rw [List.length_eq_zero_iff.mp h]
    rfl
  | succ n ih =>
    have hfirst : (written.take 5).length = 5 := by
      rw [List.length_take]
      omega
    have hrest : (written.drop 5).length = 5 * n := by
      rw [List.length_drop]
      omega
    rw [← List.take_append_drop 5 written, List.append_assoc, spell_cons hfirst, ih hrest,
      spell_cons hfirst, List.cons_append]

theorem flatten_quintets (bits : List Bool) : ∃ pad < 5,
    (quintets bits).flatten = bits ++ List.replicate pad false := by
  induction bits using quintets.induct with
  | case1 b₀ b₁ b₂ b₃ b₄ bits ih =>
    obtain ⟨pad, hpad, heq⟩ := ih
    refine ⟨pad, hpad, ?_⟩
    rw [quintets, List.flatten_cons, heq]
    rfl
  | case2 => exact ⟨0, by decide, rfl⟩
  | case3 bits hlong hne =>
    refine ⟨5 - bits.length, ?_, ?_⟩
    · have hpos := List.length_pos_iff.mpr hne
      omega
    · rw [quintets, List.flatten_singleton]
      · exact hlong
      · exact hne

theorem length_quintets (bits : List Bool) : ∀ q ∈ quintets bits, q.length = 5 := by
  induction bits using quintets.induct with
  | case1 b₀ b₁ b₂ b₃ b₄ bits ih =>
    rw [quintets]
    exact List.forall_mem_cons.mpr ⟨rfl, ih⟩
  | case2 => exact List.forall_mem_nil _
  | case3 bits hlong hne =>
    have hshort : bits.length < 5 := by
      match bits with
      | [] | [_] | [_, _] | [_, _, _] | [_, _, _, _] => simp
      | b₀ :: b₁ :: b₂ :: b₃ :: b₄ :: bits => exact absurd rfl (hlong b₀ b₁ b₂ b₃ b₄ bits)
    rw [quintets, List.forall_mem_singleton, List.length_append, List.length_replicate]
    · omega
    · exact hlong
    · exact hne

end Groups

section Registers

/-- Bits that are shifted in from below stand behind those that were there, as long as all of them
have a place. -/
theorem toBits_shift (B : BitVec 32) (hv : v < 2 ^ k) (h : n + k ≤ 32) :
    toBits (n + k) ((B <<< k) ||| BitVec.ofNat 32 v).toNat = toBits n B.toNat ++ toBits k v := by
  have hpow : 2 ^ k ≤ 2 ^ 32 := Nat.pow_le_pow_right (by decide) (by omega)
  have hsmall : v % 2 ^ 32 = v := Nat.mod_eq_of_lt (hv.trans_le hpow)
  have hnat : ((B <<< k) ||| BitVec.ofNat 32 v).toNat = (B.toNat * 2 ^ k + v) % 2 ^ 32 := by
    rw [BitVec.toNat_or, BitVec.toNat_shiftLeft, BitVec.toNat_ofNat, ← Nat.or_mod_two_pow,
      ← Nat.shiftLeft_add_eq_or_of_lt hv, Nat.shiftLeft_eq]
  have hhigh : (B.toNat * 2 ^ k + v) / 2 ^ k = B.toNat := by
    rw [Nat.add_comm, Nat.add_mul_div_right _ _ (Nat.two_pow_pos k), Nat.div_eq_of_lt hv,
      Nat.zero_add]
  have hlow : (B.toNat * 2 ^ k + v) % 2 ^ k = v := by
    rw [Nat.mul_add_mod', Nat.mod_eq_of_lt hv]
  rw [hnat, toBits_mod _ _ _ h, toBits_add, hhigh, ← toBits_mod k k _ le_rfl, hlow]

theorem letter_toBits (n : ℕ) : letter (ofBits (toBits 5 n)) = letter n := by
  rw [ofBits_toBits, letter, letter]
  simp

theorem toNat_low (B : BitVec 32) : (B &&& 0x1f).toNat = B.toNat % 32 := by
  rw [BitVec.toNat_and]
  exact Nat.and_two_pow_sub_one_eq_mod B.toNat 5

theorem letter_low (B : BitVec 32) : letter (B &&& 0x1f).toNat = letter B.toNat := by
  rw [toNat_low, letter, letter]
  simp

/-- The letters written are those of the bits that leave the register. -/
theorem drain_spec (B : BitVec 32) (n : ℕ) : (drain B n).2 < 5 ∧
    ∃ written, toBits n B.toNat = written ++ toBits (drain B n).2 B.toNat ∧
      written.length = 5 * (drain B n).1.length ∧ spell written = (drain B n).1 := by
  induction n using @drain.induct B with
  | case1 n ih =>
    obtain ⟨hlt, written, hsplit, hlength, hspell⟩ := ih
    have hfirst : (toBits 5 (B >>> n).toNat).length = 5 := length_toBits 5 _
    have hshift : (B >>> n).toNat = B.toNat / 2 ^ n := by
      rw [BitVec.toNat_ushiftRight, Nat.shiftRight_eq_div_pow]
    refine ⟨hlt, toBits 5 (B >>> n).toNat ++ written, ?_, ?_, ?_⟩
    · have hsum : toBits (n + 5) B.toNat = toBits 5 (B.toNat / 2 ^ n) ++ toBits n B.toNat := by
        rw [Nat.add_comm, toBits_add]
      rw [drain, hshift, List.append_assoc, ← hsplit]
      exact hsum
    · rw [drain, List.length_append, hfirst, hlength, List.length_cons]
      omega
    · rw [drain, spell_cons hfirst, hspell, letter_toBits, letter_low]
  | case2 n hsmall =>
    have hlt : n < 5 := by
      by_contra hle
      exact hsmall (n - 5) (by omega)
    have hdrain : drain B n = ([], n) := by
      rw [drain]
      exact hsmall
    rw [hdrain]
    exact ⟨hlt, [], rfl, rfl, rfl⟩

theorem Pending.encodeByte {r : Register Char} (h : Pending bytes r) (b : UInt8) :
    Pending (bytes ++ [b]) (encodeByte r b) := by
  obtain ⟨written, hsplit, hlength, hspell⟩ := h.split
  have hbits := h.bits_lt
  have hshift := toBits_shift (n := r.bits) r.buffer b.toNat_lt (by omega)
  obtain ⟨hlt, more, hmore, hcount, hletters⟩ :=
    drain_spec ((r.buffer <<< 8) ||| BitVec.ofNat 32 b.toNat) (r.bits + 8)
  refine ⟨hlt, written ++ more, ?_, ?_, ?_⟩
  · rw [bitsOf_append, bitsOf_cons, bitsOf_nil, List.append_nil, hsplit, List.append_assoc,
      ← hshift, hmore, List.append_assoc]
    rfl
  · rw [Totp.encodeByte, List.length_append, List.length_append, hlength, hcount]
    omega
  · rw [Totp.encodeByte, spell_append hlength, hspell, hletters]

theorem pending_encodeBytes (bytes : List UInt8) : Pending bytes (encodeBytes bytes) := by
  induction bytes using List.reverseRecOn with
  | nil => exact ⟨by decide, [], rfl, rfl, rfl⟩
  | append_singleton bytes b ih =>
    rw [encodeBytes, List.foldl_concat]
    exact ih.encodeByte b

theorem ofBits_zeros (n : ℕ) : ofBits (List.replicate n false) = 0 := by
  induction n with
  | zero => rfl
  | succ n ih => rw [List.replicate_succ, ofBits, ih, Bool.toNat_false, Nat.zero_mul]

theorem spell_last (B : BitVec 32) (hpos : 0 < n) (hlt : n < 5) :
    spell (toBits n B.toNat) = [letter ((B <<< (5 - n)) &&& 0x1f).toNat] := by
  have hgroups : quintets (toBits n B.toNat) =
      [toBits n B.toNat ++ List.replicate (5 - n) false] := by
    match n, hpos, hlt with
    | 1, _, _ | 2, _, _ | 3, _, _ | 4, _, _ => rfl
  have hvalue : ofBits (toBits n B.toNat ++ List.replicate (5 - n) false) =
      B.toNat * 2 ^ (5 - n) % 32 := by
    have hpow : 2 ^ n * 2 ^ (5 - n) = 32 := by
      rw [← pow_add, Nat.add_sub_cancel' hlt.le]
      rfl
    have hmod := Nat.mul_mod_mul_right (2 ^ (5 - n)) B.toNat (2 ^ n)
    rw [hpow] at hmod
    rw [ofBits_append, ofBits_zeros, ofBits_toBits, List.length_replicate, Nat.add_zero, hmod]
  have hbuffer : (B <<< (5 - n)).toNat % 32 = B.toNat * 2 ^ (5 - n) % 32 := by
    rw [BitVec.toNat_shiftLeft, Nat.shiftLeft_eq]
    exact Nat.mod_mod_of_dvd _ (by decide)
  rw [spell, hgroups, List.map_singleton, hvalue, letter_low, letter, letter]
  simp only [hbuffer, Nat.mod_mod]

theorem base32Encode_eq (bytes : List UInt8) : base32Encode bytes = rfc4648 bytes := by
  obtain ⟨hlt, written, hsplit, hlength, hspell⟩ := pending_encodeBytes bytes
  rw [base32Encode, rfc4648, hsplit, spell_append hlength, hspell]
  congr 2
  split_ifs with hpos
  · exact (spell_last _ hpos hlt).symm
  · rw [Nat.eq_zero_of_not_pos hpos]
    rfl

end Registers

section Decoding

theorem findIdx_letter (n : ℕ) :
    alphabet.findIdx? (fun a ↦ a == letter n) = some (n % 32) := by
  have hall : ∀ i : Fin alphabet.length,
      alphabet.findIdx? (fun a ↦ a == alphabet.get i) = some i.val := by decide
  exact hall ⟨n % 32, mod_lt_alphabet n⟩

theorem toUpper_letter (n : ℕ) : (letter n).toUpper = letter n := by
  have hall : ∀ i : Fin alphabet.length, (alphabet.get i).toUpper = alphabet.get i := by decide
  exact hall ⟨n % 32, mod_lt_alphabet n⟩

theorem significant_letter (n : ℕ) : (!isWhitespace (letter n) && letter n != '=') = true := by
  have hall : ∀ i : Fin alphabet.length,
      (!isWhitespace (alphabet.get i) && alphabet.get i != '=') = true := by decide
  exact hall ⟨n % 32, mod_lt_alphabet n⟩

/-- The bytes written and the low bits of the register are the bits that were read. -/
structure Read (bits : List Bool) (r : Register UInt8) : Prop where
  bits_lt : r.bits < 8
  split : bits = bitsOf r.out ++ toBits r.bits r.buffer.toNat

theorem Read.decodeChar {r : Register UInt8} (h : Read bits r) (hq : q.length = 5) {ch : Char}
    (hch : ch.toUpper = letter (ofBits q)) :
    ∃ r', decodeChar r ch = some r' ∧ Read (bits ++ q) r' := by
  have hbits := h.bits_lt
  have hvalue : ofBits q < 2 ^ 5 := hq ▸ ofBits_lt q
  have hread : toBits 5 (ofBits q) = q := hq ▸ toBits_ofBits q
  have hsmall : ofBits q % 32 = ofBits q := Nat.mod_eq_of_lt hvalue
  have hshift := toBits_shift (n := r.bits) r.buffer hvalue (by omega)
  rw [hread] at hshift
  rw [Totp.decodeChar, hch, findIdx_letter, hsmall]
  by_cases hfull : 8 ≤ r.bits + 5
  · have hlt : r.bits + 5 - 8 < 8 := by omega
    refine ⟨_, if_pos hfull, hlt, ?_⟩
    generalize (r.buffer <<< 5) ||| BitVec.ofNat 32 (ofBits q) = B at hshift
    have hsum := toBits_add 8 (r.bits + 5 - 8) B.toNat
    rw [Nat.add_sub_cancel' hfull, hshift] at hsum
    have hbyte : toBits 8 (UInt8.ofNat (B >>> (r.bits + 5 - 8)).toNat).toNat =
        toBits 8 (B.toNat / 2 ^ (r.bits + 5 - 8)) := by
      rw [UInt8.toNat_ofNat', toBits_mod 8 8 _ le_rfl, BitVec.toNat_ushiftRight,
        Nat.shiftRight_eq_div_pow]
    rw [h.split, List.append_assoc, hsum, bitsOf_append, bitsOf_cons, bitsOf_nil, List.append_nil,
      hbyte, List.append_assoc]
  · refine ⟨_, if_neg hfull, Nat.lt_of_not_le hfull, ?_⟩
    rw [hshift, h.split, List.append_assoc]

theorem Read.foldlM {r : Register UInt8} (h : Read bits r) {groups : List (List Bool)}
    (hgroups : ∀ q ∈ groups, q.length = 5) {chars : List Char}
    (hchars : chars.map Char.toUpper = groups.map (fun q ↦ letter (ofBits q))) :
    ∃ r', chars.foldlM Totp.decodeChar r = some r' ∧ Read (bits ++ groups.flatten) r' := by
  induction groups generalizing bits r chars with
  | nil =>
    rw [List.map_nil, List.map_eq_nil_iff] at hchars
    rw [hchars, List.flatten_nil, List.append_nil]
    exact ⟨r, rfl, h⟩
  | cons q groups ih =>
    obtain ⟨hq, hgroups⟩ := List.forall_mem_cons.mp hgroups
    obtain ⟨ch, rest, rfl, hch, hrest⟩ := List.map_eq_cons_iff.mp hchars
    obtain ⟨r', hstep, hread⟩ := h.decodeChar hq hch
    obtain ⟨r'', hrun, hall⟩ := ih hread hgroups hrest
    refine ⟨r'', ?_, ?_⟩
    · rw [List.foldlM_cons, hstep]
      exact hrun
    · rwa [List.flatten_cons, ← List.append_assoc]

theorem base32Decode_of_spells {s : String} (h : Spells s (base32Encode bytes)) :
    base32Decode s = some bytes := by
  have hstart : Read [] (⟨0, 0, []⟩ : Register UInt8) := ⟨by decide, rfl⟩
  rw [Spells, base32Encode_eq, rfc4648, String.toList_ofList] at h
  obtain ⟨r, hrun, hread⟩ := hstart.foldlM (length_quintets _) h
  obtain ⟨pad, hpad, hflatten⟩ := flatten_quintets (bitsOf bytes)
  have hsplit := hread.split
  rw [List.nil_append, hflatten] at hsplit
  have hlength := congrArg List.length hsplit
  rw [List.length_append, List.length_append, length_bitsOf, length_bitsOf, length_toBits,
    List.length_replicate] at hlength
  have hbits := hread.bits_lt
  have hbytes : bitsOf bytes = bitsOf r.out :=
    List.append_inj_left hsplit (by rw [length_bitsOf, length_bitsOf]; omega)
  rw [base32Decode, hrun, bitsOf_injective hbytes]
  rfl

theorem spells_self (bytes : List UInt8) : Spells (base32Encode bytes) (base32Encode bytes) := by
  have hletter : ∀ c ∈ spell (bitsOf bytes), ∃ n, c = letter n := by
    intro c hc
    obtain ⟨q, -, heq⟩ := List.mem_map.mp hc
    exact ⟨_, heq.symm⟩
  rw [Spells, significant, base32Encode_eq, rfc4648, String.toList_ofList, List.filter_eq_self.mpr]
  · refine (List.map_congr_left fun c hc ↦ ?_).trans (List.map_id _)
    obtain ⟨n, rfl⟩ := hletter c hc
    exact toUpper_letter n
  · intro c hc
    obtain ⟨n, rfl⟩ := hletter c hc
    exact significant_letter n

/-- Base32 is that of RFC 4648, the register keeps every bit until its letter is written, and an
encoding is read back in any case and with white space and equal signs anywhere in it. -/
theorem base32_faithful (bytes : List UInt8) :
    base32Encode bytes = rfc4648 bytes ∧
      (∀ before, before <+: bytes → Pending before (encodeBytes before)) ∧
      base32Decode (base32Encode bytes) = some bytes ∧
      ∀ s, Spells s (base32Encode bytes) → base32Decode s = some bytes :=
  ⟨base32Encode_eq bytes, fun before _ ↦ pending_encodeBytes before,
    base32Decode_of_spells (spells_self bytes), fun _ ↦ base32Decode_of_spells⟩

theorem base32_lower : base32Decode "ci2 a==" = some [0x12, 0x34] :=
  (base32_faithful [0x12, 0x34]).2.2.2 "ci2 a==" (by decide)

end Decoding

end Aldivine.Aegis.Totp
