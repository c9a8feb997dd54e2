import Aldivine.Aegis.Totp
import Aldivine.Edge.Forwarding
import Aldivine.Foundation.Text
import Aldivine.Foundation.Utf8

namespace Aldivine.Node.Verification

open Aegis.Totp (toBits_shift)
open Edge.Forwarding (hexByte lowerHex lowerHex_injective)
open Foundation.BitStrings Foundation.Text Foundation.Utf8

/-- The six bits that a byte of the standard alphabet stands for. -/
def digit (c : UInt8) : Option ℕ :=
  if 65 ≤ c ∧ c ≤ 90 then some (c.toNat - 65)
  else if 97 ≤ c ∧ c ≤ 122 then some (c.toNat - 97 + 26)
  else if 48 ≤ c ∧ c ≤ 57 then some (c.toNat - 48 + 52)
  else if c = 43 then some 62
  else if c = 47 then some 63
  else none

/-- The low `bits` bits of `acc` are pending. -/
structure Decoder where
  acc : BitVec 32
  bits : ℕ
  out : List UInt8

def Decoder.push (d : Decoder) (v : ℕ) : Decoder :=
  let acc := (d.acc <<< 6) ||| BitVec.ofNat 32 v
  if 8 ≤ d.bits + 6 then
    ⟨acc, d.bits + 6 - 8, d.out ++ [UInt8.ofNat (acc >>> (d.bits + 6 - 8)).toNat]⟩
  else
    ⟨acc, d.bits + 6, d.out⟩

/-- The loop over the bytes, which an equal sign ends. -/
def decodeBytes (d : Decoder) : List UInt8 → Option (List UInt8)
  | [] => some d.out
  | c :: rest =>
    match digit c with
    | some v => decodeBytes (d.push v) rest
    | none => if c = 61 then some d.out else none

def base64Decode (s : String) : Option (List UInt8) := decodeBytes ⟨0, 0, []⟩ (utf8 s)

inductive NodeError
  | integrity (text : String)
  | integrityMismatch (text : String)
deriving DecidableEq

structure Integrity where
  algorithm : String
  hex : String
deriving DecidableEq

def wanted (algo : String) : Option ℕ :=
  if algo = "sha512" then some 64 else if algo = "sha256" then some 32 else none

def parseIntegrity (s : String) : Except NodeError Integrity :=
  match splitOnce '-' s with
  | none => .error (.integrity s)
  | some (algo, b64) =>
    match wanted algo with
    | none => .error (.integrity s)
    | some want =>
      match base64Decode b64 with
      | none => .error (.integrity s)
      | some raw =>
        if raw.length ≠ want then .error (.integrity s) else .ok ⟨algo, lowerHex raw⟩

structure Hashes where
  sha512 : List UInt8 → List UInt8
  sha256 : List UInt8 → List UInt8

def Hashes.digest (hashes : Hashes) (algorithm : String) (bytes : List UInt8) : List UInt8 :=
  if algorithm = "sha512" then hashes.sha512 bytes else hashes.sha256 bytes

def verifyIntegrity (hashes : Hashes) (integrity : String) (bytes : List UInt8) :
    Except NodeError Unit :=
  match parseIntegrity integrity with
  | .error e => .error e
  | .ok parsed =>
    if lowerHex (hashes.digest parsed.algorithm bytes) = parsed.hex then .ok ()
    else .error (.integrityMismatch integrity)

/-- A slice that is out of range panics. -/
def cachePath (integrity : Integrity) : Option String :=
  let h := integrity.hex.toList
  if h.length < 4 then none
  else
    some ("cache/content-v2/" ++ integrity.algorithm ++ "/" ++ String.ofList (h.take 2) ++ "/" ++
      String.ofList ((h.drop 2).take 2) ++ "/" ++ String.ofList (h.drop 4))

def placed (integrity : String) : Option String :=
  match parseIntegrity integrity with
  | .ok parsed => cachePath parsed
  | .error _ => none

def alphabet : List Char :=
  "ABCDEFGHIJKLMNOPQRSTUVWXYZabcdefghijklmnopqrstuvwxyz0123456789+/".toList

theorem mod_lt_alphabet (n : ℕ) : n % 64 < alphabet.length := Nat.mod_lt n (by decide)

def letter (n : ℕ) : Char := alphabet.get ⟨n % 64, mod_lt_alphabet n⟩

def group (a b c : UInt8) : ℕ := a.toNat * 2 ^ 16 + b.toNat * 2 ^ 8 + c.toNat

/-- The encoder of the tests, padded. -/
def base64Of : List UInt8 → List Char
  | a :: b :: c :: rest =>
    letter (group a b c / 2 ^ 18) :: letter (group a b c / 2 ^ 12) ::
      letter (group a b c / 2 ^ 6) :: letter (group a b c) :: base64Of rest
  | [a, b] =>
    [letter (group a b 0 / 2 ^ 18), letter (group a b 0 / 2 ^ 12), letter (group a b 0 / 2 ^ 6),
      '=']
  | [a] => [letter (group a 0 0 / 2 ^ 18), letter (group a 0 0 / 2 ^ 12), '=', '=']
  | [] => []

/-- The letters before an equal sign have the bits of the bytes, and less than a byte more. -/
def Decodes (text bytes : List UInt8) : Prop :=
  ∃ (digits : List ℕ) (rest : List Bool),
    (text.takeWhile (fun c ↦ decide (c ≠ 61))).map digit = digits.map some ∧
    digits.flatMap (toBits 6) = bitsOf bytes ++ rest ∧ rest.length < 8

def Names (s algorithm : String) (digest : List UInt8) : Prop :=
  wanted algorithm = some digest.length ∧
    ∃ b64, s.toList = algorithm.toList ++ '-' :: b64.toList ∧ Decodes (utf8 b64) digest

variable {d : Decoder} {bits : List Bool} {text bytes out : List UInt8} {v : ℕ} {c : UInt8}
  {s s' algorithm algorithm' : String} {digest digest' : List UInt8}

section Decoding

/-- The bytes written and the pending bits are the bits that were read. -/
structure Read (bits : List Bool) (d : Decoder) : Prop where
  bits_lt : d.bits < 8
  split : bits = bitsOf d.out ++ toBits d.bits d.acc.toNat

theorem digit_lt (h : digit c = some v) : v < 64 := by
  unfold digit at h
  simp only [UInt8.le_iff_toNat_le] at h
  split_ifs at h <;> cases h <;> simp_all <;> omega

theorem Read.push (h : Read bits d) (hv : v < 64) : Read (bits ++ toBits 6 v) (d.push v) := by
  have hbits := h.bits_lt
  have hshift := toBits_shift (k := 6) (n := d.bits) d.acc hv (by omega)
  unfold Decoder.push
  dsimp only
  generalize (d.acc <<< 6) ||| BitVec.ofNat 32 v = acc at hshift
  split
  · rename_i hfull
    have hsum := toBits_add 8 (d.bits + 6 - 8) acc.toNat
    rw [Nat.add_sub_cancel' hfull, hshift] at hsum
    have hbyte : toBits 8 (UInt8.ofNat (acc >>> (d.bits + 6 - 8)).toNat).toNat =
        toBits 8 (acc.toNat / 2 ^ (d.bits + 6 - 8)) := by
      rw [UInt8.toNat_ofNat', toBits_mod 8 8 _ le_rfl, BitVec.toNat_ushiftRight,
        Nat.shiftRight_eq_div_pow]
    refine ⟨by dsimp only; omega, ?_⟩
    rw [h.split, List.append_assoc, hsum, bitsOf_append, bitsOf_cons, bitsOf_nil, List.append_nil,
      hbyte, List.append_assoc]
  · rename_i hroom
    refine ⟨by dsimp only; omega, ?_⟩
    rw [hshift, h.split, List.append_assoc]

theorem digit_equals : digit 61 = none := by decide

theorem bytes_unique {xs ys : List UInt8} {rest rest' : List Bool}
    (h : bitsOf xs ++ rest = bitsOf ys ++ rest') (hrest : rest.length < 8)
    (hrest' : rest'.length < 8) : xs = ys := by
  have hlength := congrArg List.length h
  rw [List.length_append, List.length_append, length_bitsOf, length_bitsOf] at hlength
  refine bitsOf_injective (List.append_inj_left h ?_)
  rw [length_bitsOf, length_bitsOf]
  omega

theorem Read.finish (h : Read bits d) :
    d.out = out ↔ ∃ rest, bits = bitsOf out ++ rest ∧ rest.length < 8 := by
  have hlength : (toBits d.bits d.acc.toNat).length < 8 := by
    rw [length_toBits]
    exact h.bits_lt
  constructor
  · rintro rfl
    exact ⟨_, h.split, hlength⟩
  · rintro ⟨rest, hbits, hrest⟩
    exact bytes_unique (h.split.symm.trans hbits) hlength hrest

theorem Read.stop (h : Read bits d) :
    d.out = out ↔ ∃ (digits : List ℕ) (rest : List Bool), [] = digits.map some ∧
      bits ++ digits.flatMap (toBits 6) = bitsOf out ++ rest ∧ rest.length < 8 := by
  rw [h.finish]
  constructor
  · rintro ⟨rest, hbits, hrest⟩
    exact ⟨[], rest, rfl, by rwa [List.flatMap_nil, List.append_nil], hrest⟩
  · rintro ⟨digits, rest, hnil, hbits, hrest⟩
    rw [List.map_eq_nil_iff.mp hnil.symm, List.flatMap_nil, List.append_nil] at hbits
    exact ⟨rest, hbits, hrest⟩

/-- What the loop returns has the bits that were read, as far as they make up bytes. -/
theorem decodeBytes_eq_some (h : Read bits d) :
    decodeBytes d text = some out ↔
      ∃ (digits : List ℕ) (rest : List Bool),
        (text.takeWhile (fun c ↦ decide (c ≠ 61))).map digit = digits.map some ∧
        bits ++ digits.flatMap (toBits 6) = bitsOf out ++ rest ∧ rest.length < 8 := by
  induction text generalizing bits d with
  | nil =>
    rw [decodeBytes, Option.some.injEq, h.stop]
    rfl
  | cons c text ih =>
    rw [decodeBytes, List.takeWhile_cons]
    cases hdigit : digit c with
    | none =>
      by_cases hequals : c = 61
      · rw [if_pos hequals, if_neg (by simp [hequals]), Option.some.injEq, h.stop]
        rfl
      · rw [if_neg hequals, if_pos (decide_eq_true hequals), List.map_cons, hdigit]
        refine iff_of_false nofun ?_
        rintro ⟨digits, rest, hmap, -⟩
        cases digits <;> cases hmap
    | some v =>
      have hletter : c ≠ 61 := by
        rintro rfl
        cases digit_equals.symm.trans hdigit
      rw [if_pos (decide_eq_true hletter), List.map_cons, hdigit]
      refine (ih (h.push (digit_lt hdigit))).trans ?_
      constructor
      · rintro ⟨digits, rest, hmap, hbits, hrest⟩
        refine ⟨v :: digits, rest, by rw [hmap, List.map_cons], ?_, hrest⟩
        rwa [List.flatMap_cons, ← List.append_assoc]
      · rintro ⟨digits, rest, hmap, hbits, hrest⟩
        obtain ⟨w, digits, rfl, hw, hmore⟩ := List.map_eq_cons_iff.mp hmap.symm
        cases hw
        rw [List.flatMap_cons, ← List.append_assoc] at hbits
        exact ⟨digits, rest, hmore.symm, hbits, hrest⟩

theorem base64Decode_eq_some : base64Decode s = some out ↔ Decodes (utf8 s) out := by
  have hstart : Read [] ⟨0, 0, []⟩ := ⟨by decide, rfl⟩
  exact decodeBytes_eq_some hstart

end Decoding

section Encoding

theorem letter_spec (n : ℕ) : ∃ c, String.utf8EncodeChar (letter n) = [c] ∧ c ≠ 61 ∧
    digit c = some (n % 64) := by
  have hall : ∀ i : Fin 64, String.utf8EncodeChar (alphabet.get i) =
      [UInt8.ofNat (alphabet.get i).toNat] ∧ UInt8.ofNat (alphabet.get i).toNat ≠ 61 ∧
      digit (UInt8.ofNat (alphabet.get i).toNat) = some i.val := by decide
  exact ⟨_, hall ⟨n % 64, Nat.mod_lt n (by decide)⟩⟩

def Spells (text : List UInt8) (digits : List ℕ) : Prop :=
  (text.takeWhile (fun c ↦ decide (c ≠ 61))).map digit = digits.map some

theorem Spells.letter {chars : List Char} {digits : List ℕ} (h : Spells (encode chars) digits)
    (n : ℕ) : Spells (encode (letter n :: chars)) (n % 64 :: digits) := by
  obtain ⟨c, hbyte, hequals, hdigit⟩ := letter_spec n
  rw [Spells, encode_cons, hbyte, List.singleton_append, List.takeWhile_cons,
    if_pos (decide_eq_true hequals), List.map_cons, hdigit, h, List.map_cons]

theorem toBits_six (n : ℕ) : toBits 6 (n % 64) = toBits 6 n := toBits_mod 6 6 n le_rfl

theorem group_bytes (a b c : UInt8) :
    toBits 8 (group a b c / 2 ^ 16) = toBits 8 a.toNat ∧
      toBits 8 (group a b c / 2 ^ 8) = toBits 8 b.toNat ∧
      toBits 8 (group a b c) = toBits 8 c.toNat := by
  have ha := a.toNat_lt
  have hb := b.toNat_lt
  have hc := c.toNat_lt
  have hfirst : group a b c / 2 ^ 16 = a.toNat := by
    rw [group]
    omega
  have hsecond : group a b c / 2 ^ 8 % 2 ^ 8 = b.toNat := by
    rw [group]
    omega
  have hthird : group a b c % 2 ^ 8 = c.toNat := by
    rw [group]
    omega
  refine ⟨by rw [hfirst], ?_, ?_⟩
  · rw [← toBits_mod 8 8 (_ / _) le_rfl, hsecond]
  · rw [← toBits_mod 8 8 (group a b c) le_rfl, hthird]

theorem toBits_div (j k m n : ℕ) :
    toBits (j + k) (n / 2 ^ m) = toBits j (n / 2 ^ (m + k)) ++ toBits k (n / 2 ^ m) := by
  rw [toBits_add, Nat.div_div_eq_div_mul, ← pow_add]

theorem toBits_digits (a b c : UInt8) : toBits 6 (group a b c / 2 ^ 18) ++
    (toBits 6 (group a b c / 2 ^ 12) ++ (toBits 6 (group a b c / 2 ^ 6) ++
      toBits 6 (group a b c))) = bitsOf [a, b, c] := by
  obtain ⟨ha, hb, hc⟩ := group_bytes a b c
  rw [← toBits_add 6 6, ← toBits_add 6 12, ← toBits_add 6 18]
  change toBits (8 + (8 + 8)) (group a b c) = _
  rw [toBits_add, toBits_add, ha, hb, hc]
  simp

theorem toBits_short (a b : UInt8) :
    toBits 6 (group a b 0 / 2 ^ 18) ++ (toBits 6 (group a b 0 / 2 ^ 12) ++
        toBits 6 (group a b 0 / 2 ^ 6)) = bitsOf [a, b] ++ toBits 2 (group a b 0 / 2 ^ 6) ∧
      toBits 6 (group a 0 0 / 2 ^ 18) ++ toBits 6 (group a 0 0 / 2 ^ 12) =
        bitsOf [a] ++ toBits 4 (group a 0 0 / 2 ^ 12) := by
  constructor
  · obtain ⟨ha, hb, -⟩ := group_bytes a b 0
    rw [← toBits_div 6 6 6, ← toBits_div 6 12 6]
    change toBits (8 + 8 + 2) (group a b 0 / 2 ^ 6) = _
    rw [toBits_div, toBits_div, ha, hb]
    simp
  · obtain ⟨ha, -, -⟩ := group_bytes a 0 0
    rw [← toBits_div 6 6 12]
    change toBits (8 + 4) (group a 0 0 / 2 ^ 12) = _
    rw [toBits_div, ha]
    simp

theorem decodes_base64Of (bytes : List UInt8) : Decodes (encode (base64Of bytes)) bytes := by
  have hstop (chars : List Char) : Spells (encode ('=' :: chars)) [] := rfl
  induction bytes using base64Of.induct with
  | case1 a b c bytes ih =>
    obtain ⟨digits, rest, hspells, hbits, hrest⟩ := ih
    refine ⟨_, rest, (((Spells.letter hspells _).letter _).letter _).letter _, ?_, hrest⟩
    have hsplit : bitsOf (a :: b :: c :: bytes) = bitsOf [a, b, c] ++ bitsOf bytes :=
      bitsOf_append [a, b, c] bytes
    simp only [List.flatMap_cons, toBits_six, hbits]
    rw [hsplit, ← toBits_digits]
    simp only [List.append_assoc]
  | case2 a b =>
    refine ⟨_, toBits 2 (group a b 0 / 2 ^ 6), (((hstop []).letter _).letter _).letter _, ?_, ?_⟩
    · simp only [List.flatMap_cons, List.flatMap_nil, List.append_nil, toBits_six]
      exact (toBits_short a b).1
    · rw [length_toBits]
      decide
  | case3 a =>
    refine ⟨_, toBits 4 (group a 0 0 / 2 ^ 12), ((hstop ['=']).letter _).letter _, ?_, ?_⟩
    · simp only [List.flatMap_cons, List.flatMap_nil, List.append_nil, toBits_six]
      exact (toBits_short a 0).2
    · rw [length_toBits]
      decide
  | case4 => exact ⟨[], [], rfl, rfl, by decide⟩

end Encoding

section Naming

theorem wanted_cases {n : ℕ} (h : wanted algorithm = some n) :
    algorithm = "sha512" ∧ n = 64 ∨ algorithm = "sha256" ∧ n = 32 := by
  unfold wanted at h
  split_ifs at h with hlong hshort
  · exact .inl ⟨hlong, (Option.some.inj h).symm⟩
  · exact .inr ⟨hshort, (Option.some.inj h).symm⟩

theorem hyphen_of_wanted {n : ℕ} (h : wanted algorithm = some n) : '-' ∉ algorithm.toList := by
  obtain ⟨rfl, -⟩ | ⟨rfl, -⟩ := wanted_cases h
  · decide
  · decide

theorem parseIntegrity_eq_ok {p : Integrity} : parseIntegrity s = .ok p ↔
    ∃ digest, Names s p.algorithm digest ∧ p.hex = lowerHex digest := by
  constructor
  · intro h
    unfold parseIntegrity at h
    split at h
    · cases h
    · rename_i algo b64 hsplit
      split at h
      · cases h
      · rename_i want hwant
        split at h
        · cases h
        · rename_i raw hdecode
          split_ifs at h with hlength
          · cases h
            rw [ne_eq, not_not] at hlength
            exact ⟨raw, ⟨hlength ▸ hwant, b64, (splitOnce_eq_some.mp hsplit).1,
              base64Decode_eq_some.mp hdecode⟩, rfl⟩
  · rintro ⟨digest, ⟨hwanted, b64, hs, hdecodes⟩, hhex⟩
    have hsplit := splitOnce_eq_some.mpr ⟨hs, hyphen_of_wanted hwanted⟩
    rw [parseIntegrity, hsplit]
    dsimp only
    rw [hwanted]
    dsimp only
    rw [base64Decode_eq_some.mpr hdecodes]
    dsimp only
    rw [if_neg (not_not.mpr rfl), ← hhex]

theorem Names.parse (h : Names s algorithm digest) :
    parseIntegrity s = .ok ⟨algorithm, lowerHex digest⟩ :=
  parseIntegrity_eq_ok.mpr ⟨digest, h, rfl⟩

/-- Content passes exactly when the text names its digest. -/
theorem verifyIntegrity_iff (hashes : Hashes) (s : String) (bytes : List UInt8) :
    verifyIntegrity hashes s bytes = .ok () ↔
      ∃ algorithm, Names s algorithm (hashes.digest algorithm bytes) := by
  constructor
  · intro h
    unfold verifyIntegrity at h
    split at h
    · cases h
    · rename_i parsed hparse
      split_ifs at h with hhex
      · obtain ⟨digest, hnames, hdigest⟩ := parseIntegrity_eq_ok.mp hparse
        rw [hdigest] at hhex
        exact ⟨parsed.algorithm, (lowerHex_injective hhex) ▸ hnames⟩
  · rintro ⟨algorithm, hnames⟩
    rw [verifyIntegrity, hnames.parse]
    exact if_pos rfl

theorem length_lowerHex (bytes : List UInt8) :
    (lowerHex bytes).toList.length = 2 * bytes.length := by
  rw [lowerHex, String.toList_ofList]
  induction bytes with
  | nil => rfl
  | cons b bytes ih =>
    rw [List.flatMap_cons, List.length_append, ih, List.length_cons, hexByte]
    simp
    omega

theorem long_of_names (h : Names s algorithm digest) :
    algorithm.toList.length = 6 ∧ 4 ≤ (lowerHex digest).toList.length := by
  have hhex := length_lowerHex digest
  obtain ⟨rfl, hlength⟩ | ⟨rfl, hlength⟩ := wanted_cases h.1
  · exact ⟨rfl, by omega⟩
  · exact ⟨rfl, by omega⟩

theorem Names.placed (h : Names s algorithm digest) :
    placed s = some ("cache/content-v2/" ++ algorithm ++ "/" ++
      String.ofList ((lowerHex digest).toList.take 2) ++ "/" ++
      String.ofList (((lowerHex digest).toList.drop 2).take 2) ++ "/" ++
      String.ofList ((lowerHex digest).toList.drop 4)) := by
  have hlong := (long_of_names h).2
  rw [Verification.placed, h.parse]
  dsimp only [cachePath]
  rw [if_neg (by omega)]

theorem cut_four (l : List Char) : l.take 2 ++ ((l.drop 2).take 2 ++ l.drop 4) = l := by
  have hlast : (l.drop 2).drop 2 = l.drop 4 := List.drop_drop
  rw [← hlast, List.take_append_drop, List.take_append_drop]

/-- Content is shared exactly by the texts that name the same digest of the same algorithm. -/
theorem placed_eq_iff (h : Names s algorithm digest) (h' : Names s' algorithm' digest') :
    placed s = placed s' ↔ algorithm = algorithm' ∧ digest = digest' := by
  constructor
  · intro heq
    rw [h.placed, h'.placed, Option.some.injEq, ← String.toList_inj] at heq
    simp only [String.toList_append, String.toList_ofList, List.append_assoc] at heq
    have hlong := long_of_names h
    have hlong' := long_of_names h'
    have htwo {l l' : List Char} (hl : 2 ≤ l.length) (hl' : 2 ≤ l'.length) :
        (l.take 2).length = (l'.take 2).length := by
      rw [List.length_take, List.length_take]
      omega
    obtain ⟨halgorithm, hrest⟩ := List.append_inj (List.append_cancel_left heq)
      (hlong.1.trans hlong'.1.symm)
    obtain ⟨hfirst, hrest⟩ := List.append_inj (List.append_cancel_left hrest)
      (htwo (by omega) (by omega))
    obtain ⟨hsecond, hrest⟩ := List.append_inj (List.append_cancel_left hrest)
      (htwo (by rw [List.length_drop]; omega) (by rw [List.length_drop]; omega))
    refine ⟨String.toList_inj.mp halgorithm, lowerHex_injective (String.toList_inj.mp ?_)⟩
    rw [← cut_four (lowerHex digest).toList, ← cut_four (lowerHex digest').toList, hfirst, hsecond,
      List.append_cancel_left hrest]
  · rintro ⟨rfl, rfl⟩
    rw [h.placed, h'.placed]

end Naming

/-- Content passes the check of an integrity text exactly when the text names its digest, every
digest has such a text, and verified content has its place in the cache, which it shares with the
content of the same digest and no other. -/
theorem verified_content (hashes : Hashes) :
    (∀ s bytes, verifyIntegrity hashes s bytes = .ok () ↔
      ∃ algorithm, Names s algorithm (hashes.digest algorithm bytes)) ∧
      (∀ algorithm digest, wanted algorithm = some digest.length →
        Names (algorithm ++ "-" ++ String.ofList (base64Of digest)) algorithm digest) ∧
      ∀ s s' algorithm algorithm' digest digest', Names s algorithm digest →
        Names s' algorithm' digest' → (placed s).isSome ∧
          (placed s = placed s' ↔ algorithm = algorithm' ∧ digest = digest') := by
  refine ⟨verifyIntegrity_iff hashes, fun algorithm digest hwanted ↦ ⟨hwanted, ?_⟩,
    fun s s' algorithm algorithm' digest digest' h h' ↦ ⟨?_, placed_eq_iff h h'⟩⟩
  · refine ⟨String.ofList (base64Of digest), by simp, ?_⟩
    rw [utf8_ofList]
    exact decodes_base64Of digest
  · rw [h.placed]
    rfl

end Aldivine.Node.Verification
