import Aldivine.Foundation.Decimals
import Aldivine.Foundation.Doubles
import Mathlib

namespace Aldivine.Foundation.Floats

open Float.Model UnpackedFloat Decimals Doubles

section Reading

def parseUnsigned (chars : List Char) : Option Float.Model :=
  match parseDecimal chars with
  | some (n, e) => some (Float.Model.ofScientific n e)
  | none =>
    let word := chars.map Char.toLower
    if word = "nan".toList then some (Float.Model.pack .notANumber)
    else if word = "inf".toList ∨ word = "infinity".toList then
      some (Float.Model.pack (.infinity .positive))
    else none

def parseFloat (chars : List Char) : Option Float.Model :=
  match chars with
  | '+' :: rest => parseUnsigned rest
  | '-' :: rest => (parseUnsigned rest).map Float.Model.neg
  | rest => parseUnsigned rest

variable {c : Char} {rest : List Char}

theorem toLower_of_isDigit (hc : c.isDigit) : c.toLower = c := by
  rw [Char.toLower, dif_neg]
  intro h
  simp only [Char.isDigit, Bool.and_eq_true, decide_eq_true_eq, ge_iff_le,
    UInt32.le_iff_toNat_le] at hc h
  exact absurd (h.1.trans hc.2) (by decide)

theorem parseFloat_digit (hc : c.isDigit) :
    parseFloat (c :: rest) = (parseDecimal (c :: rest)).map fun x ↦
      Float.Model.ofScientific x.1 x.2 := by
  have hword : ∀ word ∈ ["nan", "inf", "infinity"], (c :: rest).map Char.toLower ≠ word.toList := by
    have hletters : ∀ word ∈ ["nan", "inf", "infinity"],
        word.toList.head?.all (fun d ↦ !d.isDigit) := by decide
    intro word hword heq
    have hletter := hletters word hword
    rw [← heq, List.map_cons, toLower_of_isDigit hc, List.head?_cons, Option.all_some, hc] at hletter
    cases hletter
  have hunsigned : parseFloat (c :: rest) = parseUnsigned (c :: rest) := by
    unfold parseFloat
    split
    · rename_i heq
      cases heq
      exact absurd hc (by decide)
    · rename_i heq
      cases heq
      exact absurd hc (by decide)
    · rfl
  rw [hunsigned, parseUnsigned]
  cases parseDecimal (c :: rest) with
  | some x => rfl
  | none =>
    have hinf := not_or.mpr ⟨hword "inf" (by simp), hword "infinity" (by simp)⟩
    show (if _ then _ else if _ then _ else none) = none
    rw [if_neg (hword "nan" (by simp)), if_neg hinf]

end Reading

def magnitude : UnpackedFloat → Option ℕ
  | .zero _ => some 0
  | .finite _ m e _ =>
    if 2 ^ (-e).toNat ∣ m then some (m / 2 ^ (-e).toNat * 2 ^ e.toNat) else none
  | _ => none

/-- `as i64` of a float without a fraction, up to the magnitude of the largest word. -/
def wholeWord (x : Float.Model) : Option ℤ :=
  match magnitude x.unpack with
  | some n => if n ≤ 2 ^ 63 then some x.toInt64.toInt else none
  | none => none

section Normal

variable {m k : ℕ} {e : ℤ} {s : Sign}

theorem shift_exact (m k : ℕ) :
    (⟨m * 2 ^ k, false, false⟩ : ExtendedMantissa) >>> k = ⟨m, false, false⟩ := by
  show Nat.repeat ExtendedMantissa.shiftRightOne k _ = _
  induction k generalizing m with
  | zero => simp [Nat.repeat]
  | succ k ih =>
    rw [Nat.repeat, Nat.pow_succ', ← Nat.mul_assoc, ih (m * 2)]
    simp [ExtendedMantissa.shiftRightOne]

theorem log2_normal (hlow : 2 ^ 52 ≤ m) (hhigh : m < 2 ^ 53) (k : ℕ) :
    (m * 2 ^ k).log2 = 52 + k := by
  have hpos : 0 < m * 2 ^ k := Nat.mul_pos (by omega) (Nat.two_pow_pos k)
  refine (Nat.log2_eq_iff hpos.ne').mpr ⟨?_, ?_⟩
  · rw [Nat.pow_add]
    exact Nat.mul_le_mul_right _ hlow
  · rw [Nat.add_right_comm, Nat.pow_add]
    exact Nat.mul_lt_mul_of_pos_right hhigh (Nat.two_pow_pos k)

theorem target_normal (hlow : 2 ^ 52 ≤ m) (hhigh : m < 2 ^ 53) (he : -1074 ≤ e) (k : ℕ) :
    Format.binary64.targetExponent (totalExponent (m * 2 ^ k) (e - k)) = e := by
  simp only [Format.targetExponent, totalExponent, log2_normal hlow hhigh, Format.mantissaBits,
    Format.minExponent]
  omega

theorem shift_normal (hlow : 2 ^ 52 ≤ m) (hhigh : m < 2 ^ 53) (he : -1074 ≤ e) (k : ℕ) :
    shiftToTargetExponent Format.binary64 (m * 2 ^ k) (e - k) .exact =
      (⟨m, false, false⟩, e) := by
  have hamount : (e - (e - k)).toNat = k := by omega
  rw [shiftToTargetExponent, target_normal hlow hhigh he, shiftToExponent, hamount]
  refine Prod.ext (shift_exact m k) ?_
  show e - k + (k : ℤ) = e
  omega

theorem round_normal (hlow : 2 ^ 52 ≤ m) (hhigh : m < 2 ^ 53) (he : -1074 ≤ e) (k : ℕ) :
    roundWithAccuracy Format.binary64 s (m * 2 ^ k) (e - k) .exact =
      .finite s m e (by omega) := by
  have hagain := shift_normal hlow hhigh he 0
  simp only [Nat.pow_zero, Nat.mul_one, Int.natCast_zero, Int.sub_zero] at hagain
  have hround : (⟨m, false, false⟩ : ExtendedMantissa).roundedMantissa = m := rfl
  rw [roundWithAccuracy, shift_normal hlow hhigh he]
  simp only [hround, hagain]
  rw [dif_neg (by omega)]

theorem unpackSign_packComponents (s : Sign) (exponent : BitVec 11) (fraction : BitVec 52) :
    Sign.ofBitVec (unpackSign (packComponents Format.binary64 s exponent fraction)) = s := by
  have hsign : unpackSign (packComponents Format.binary64 s exponent fraction) = s.toBitVec := by
    show (s.toBitVec ++ exponent ++ fraction).extractLsb' 63 1 = s.toBitVec
    rw [BitVec.extractLsb'_append_eq_of_le (by decide),
      BitVec.extractLsb'_append_eq_of_le (by decide)]
    cases s with
    | negative => rfl
    | positive => rfl
  rw [hsign]
  cases s with
  | negative => rfl
  | positive => rfl

theorem pack_normal (hlow : 2 ^ 52 ≤ m) (hhigh : m < 2 ^ 53) (he : -1074 ≤ e) (he' : e ≤ 971)
    (hm : 0 < m) :
    UnpackedFloat.pack Format.binary64 (.finite s m e hm) =
      packComponents Format.binary64 s (BitVec.ofNat 11 (e + 1075).toNat) (BitVec.ofNat 52 m) := by
  have hlog : m.log2 = 52 := by simpa using log2_normal hlow hhigh 0
  have hbiased : (e + (Format.binary64.exponentBias : ℤ) +
      (Format.binary64.mantissaBitsWithoutImplicit : ℤ)).toNat = (e + 1075).toNat := by
    show (e + 1023 + 52).toNat = _
    omega
  have hfinite : ¬2 ^ Format.binary64.exponentBits ≤ (e + 1075).toNat + 1 := by
    show ¬2048 ≤ _
    omega
  have hbits : 52 + 1 = Format.binary64.mantissaBits := rfl
  rw [UnpackedFloat.pack]
  simp only [hlog, hbiased]
  rw [if_neg hfinite, if_pos hbits]

theorem unpack_normal (hlow : 2 ^ 52 ≤ m) (hhigh : m < 2 ^ 53) {biased : ℕ} (hpos : 0 < biased)
    (hfinite : biased < 2047) (hm : 0 < m) :
    UnpackedFloat.unpack Format.binary64
        (packComponents Format.binary64 s (BitVec.ofNat 11 biased) (BitVec.ofNat 52 m)) =
      .finite s m (biased - 1075) hm := by
  have hexponent : (BitVec.ofNat 11 biased).toNat = biased := by
    rw [BitVec.toNat_ofNat]
    omega
  have hmantissa : (1#1 ++ BitVec.ofNat 52 m).toNat = m := by
    rw [BitVec.toNat_append, ← Nat.shiftLeft_add_eq_or_of_lt (BitVec.isLt _), BitVec.toNat_ofNat,
      BitVec.toNat_ofNat, Nat.shiftLeft_eq]
    omega
  have hne : BitVec.ofNat 11 biased ≠ -1#11 := by
    intro h
    have heq := congrArg BitVec.toNat h
    rw [hexponent] at heq
    exact hfinite.ne heq
  have hne' : BitVec.ofNat 11 biased ≠ 0#11 := by
    intro h
    have heq := congrArg BitVec.toNat h
    rw [hexponent] at heq
    exact hpos.ne' heq
  simp only [UnpackedFloat.unpack, unpackMantissa_packComponents, unpackExponent_packComponents,
    unpackSign_packComponents]
  rw [if_neg hne, if_neg hne']
  congr 1
  rw [hexponent]
  rfl

theorem unpack_pack_normal (hlow : 2 ^ 52 ≤ m) (hhigh : m < 2 ^ 53) (he : -1074 ≤ e)
    (he' : e ≤ 971) (hm : 0 < m) :
    (Float.Model.pack (.finite s m e hm)).unpack = .finite s m e hm := by
  have hexponent : ((e + 1075).toNat : ℤ) - 1075 = e := by omega
  show UnpackedFloat.unpack Format.binary64 (UnpackedFloat.pack Format.binary64 _) = _
  rw [pack_normal hlow hhigh he he', unpack_normal hlow hhigh (by omega) (by omega) hm]
  simp only [hexponent]

end Normal

section Whole

variable {n : ℕ}

/-- What has no more digits than a double is written with all of them. -/
theorem unpack_ofScientific (hpos : n ≠ 0) (h : n < 2 ^ 53) :
    ∃ hm, (Float.Model.ofScientific n 0).unpack =
      .finite .positive (n * 2 ^ (52 - n.log2)) (n.log2 - 52) hm := by
  have hexponent : n.log2 < 53 := (Nat.log2_lt hpos).mpr h
  obtain ⟨hlow, hhigh⟩ := scaled_bounds hpos h
  have hm : 0 < n * 2 ^ (52 - n.log2) := by omega
  have hshifted : n <<< 53 * 10 ^ 0 = n * 2 ^ (52 - n.log2) * 2 ^ (n.log2 + 1) := by
    rw [Nat.shiftLeft_eq, Nat.pow_zero, Nat.mul_one, Nat.mul_assoc, ← Nat.pow_add]
    congr 2
    omega
  have hscale : (n.log2 : ℤ) - 52 - (n.log2 + 1 : ℕ) = -53 + 0 := by omega
  have hround := @round_normal _ (n.log2 - 52) .positive hlow hhigh (by omega) (n.log2 + 1)
  rw [hscale, ← hshifted] at hround
  have hbits : (2 : ℤ) ^ Format.binary64.exponentBits = 2048 := rfl
  have hvalue : UnpackedFloat.ofScientific Format.binary64 n 0 =
      .finite .positive (n * 2 ^ (52 - n.log2)) (n.log2 - 52) hm := by
    rw [← hround, UnpackedFloat.ofScientific, dif_neg hpos, hbits, if_neg (by decide),
      if_neg (by omega), if_pos le_rfl]
    rfl
  refine ⟨hm, ?_⟩
  rw [Float.Model.ofScientific, hvalue]
  exact unpack_pack_normal hlow hhigh (by omega) (by omega) hm

theorem magnitude_scaled (hpos : n ≠ 0) (h : n < 2 ^ 53) {s : Sign}
    (hm : 0 < n * 2 ^ (52 - n.log2)) :
    magnitude (.finite s (n * 2 ^ (52 - n.log2)) (n.log2 - 52) hm) = some n := by
  have hexponent : n.log2 < 53 := (Nat.log2_lt hpos).mpr h
  have hdown : (-((n.log2 : ℤ) - 52)).toNat = 52 - n.log2 := by omega
  have hup : ((n.log2 : ℤ) - 52).toNat = 0 := by omega
  rw [magnitude, hdown, hup, if_pos (Nat.dvd_mul_left _ _),
    Nat.mul_div_cancel _ (Nat.two_pow_pos _), Nat.pow_zero, Nat.mul_one]

theorem roundToInt_scaled (hpos : n ≠ 0) (h : n < 2 ^ 53) :
    roundToInt .positive (n * 2 ^ (52 - n.log2)) (n.log2 - 52) = n := by
  have hexponent : n.log2 < 53 := (Nat.log2_lt hpos).mpr h
  have hdown : (0 - ((n.log2 : ℤ) - 52)).toNat = 52 - n.log2 := by omega
  have hup : ((n.log2 : ℤ) - 52).toNat = 0 := by omega
  simp only [roundToInt, decreaseExponent, hup, Nat.shiftLeft_zero, Int.natCast_zero, Int.sub_zero,
    shiftToExponent, hdown, ExtendedMantissa.ofMantissaAndAccuracy, shift_exact]
  rfl

theorem wholeWord_ofScientific (h : n < 2 ^ 53) :
    wholeWord (Float.Model.ofScientific n 0) = some (n : ℤ) := by
  by_cases hpos : n = 0
  · rw [hpos]
    decide +kernel
  obtain ⟨hm, hunpack⟩ := unpack_ofScientific hpos h
  have hword : (Float.Model.ofScientific n 0).toInt64.toInt = n := by
    rw [Float.Model.toInt64, hunpack, UnpackedFloat.toInt64, UnpackedFloat.toInt,
      roundToInt_scaled hpos h]
    have hmin : Int64.minValue.toInt = -2 ^ 63 := by decide
    have hmax : Int64.maxValue.toInt = 2 ^ 63 - 1 := by decide
    exact Int64.toInt_ofIntClamp (by omega) (by omega)
  simp only [wholeWord, hunpack, magnitude_scaled hpos h, hword]
  exact if_pos (by omega)

end Whole

end Aldivine.Foundation.Floats
