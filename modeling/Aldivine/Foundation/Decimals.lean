import Mathlib.Data.Nat.Digits.Defs

namespace Aldivine.Foundation.Decimals

section Runs

variable {α : Type} {p : α → Bool} {first rest : List α}

theorem takeWhile_append_of_head (hfirst : first.all p) (hrest : ∀ a ∈ rest.head?, ¬p a) :
    (first ++ rest).takeWhile p = first := by
  rw [List.takeWhile_append_of_pos (List.all_eq_true.mp hfirst)]
  cases rest with
  | nil => exact List.append_nil _
  | cons a rest => rw [List.takeWhile_cons_of_neg (hrest a rfl), List.append_nil]

theorem dropWhile_append_of_head (hfirst : first.all p) (hrest : ∀ a ∈ rest.head?, ¬p a) :
    (first ++ rest).dropWhile p = rest := by
  rw [List.dropWhile_append_of_pos (List.all_eq_true.mp hfirst)]
  cases rest with
  | nil => rfl
  | cons a rest => exact List.dropWhile_cons_of_neg (hrest a rfl)

end Runs

section Reading

def parseNatural (chars : List Char) : Option ℕ :=
  if chars ≠ [] ∧ chars.all Char.isDigit then some (Nat.ofDigitChars 10 chars 0) else none

def parseSigned (chars : List Char) : Option ℤ :=
  match chars with
  | '+' :: digits => (parseNatural digits).map Int.ofNat
  | '-' :: digits => (parseNatural digits).map (fun n ↦ -Int.ofNat n)
  | digits => (parseNatural digits).map Int.ofNat

def parseExponent (chars : List Char) : Option ℤ :=
  match chars with
  | [] => some 0
  | mark :: rest => if mark ∈ ['e', 'E'] then parseSigned rest else none

/-- The digits after a point, if there is one, and what follows. -/
def splitPoint (chars : List Char) : List Char × List Char :=
  match chars with
  | '.' :: rest => (rest.takeWhile Char.isDigit, rest.dropWhile Char.isDigit)
  | rest => ([], rest)

/-- The digits of a decimal numeral, and the power of ten at their end. -/
def parseDecimal (chars : List Char) : Option (ℕ × ℤ) :=
  let whole := chars.takeWhile Char.isDigit
  let (fraction, rest) := splitPoint (chars.dropWhile Char.isDigit)
  if whole ++ fraction ≠ [] then
    (parseExponent rest).map fun e ↦
      (Nat.ofDigitChars 10 (whole ++ fraction) 0, e - fraction.length)
  else none

end Reading

section Grammar

def Signed (chars : List Char) : Prop :=
  ∃ sign digits, chars = sign ++ digits ∧ sign ∈ [[], ['+'], ['-']] ∧ digits ≠ [] ∧
    digits.all Char.isDigit

/-- Nothing, or one of the marks and the exponent. -/
def Exponent (marks chars : List Char) : Prop :=
  chars = [] ∨ ∃ mark rest, chars = mark :: rest ∧ mark ∈ marks ∧ Signed rest

def pointed : Option (List Char) → List Char
  | none => []
  | some fraction => '.' :: fraction

/-- Digits, with a point before, among or after them or none, and an exponent or none. -/
def Written (digit : Char → Bool) (marks chars : List Char) : Prop :=
  ∃ whole fraction exponent, chars = whole ++ (pointed fraction ++ exponent) ∧
    whole.all digit ∧ (fraction.getD []).all digit ∧ whole ++ fraction.getD [] ≠ [] ∧
    Exponent marks exponent

variable {chars digits rest : List Char} {fraction : Option (List Char)}

theorem parseNatural_isSome :
    (parseNatural chars).isSome ↔ chars ≠ [] ∧ chars.all Char.isDigit := by
  unfold parseNatural
  split
  · rename_i h
    exact iff_of_true rfl h
  · rename_i h
    exact iff_of_false nofun h

theorem parseSigned_isSome : (parseSigned chars).isSome ↔ Signed chars := by
  constructor
  · intro h
    unfold parseSigned at h
    split at h
    · rw [Option.isSome_map, parseNatural_isSome] at h
      exact ⟨['+'], _, rfl, by simp, h⟩
    · rw [Option.isSome_map, parseNatural_isSome] at h
      exact ⟨['-'], _, rfl, by simp, h⟩
    · rw [Option.isSome_map, parseNatural_isSome] at h
      exact ⟨[], _, rfl, by simp, h⟩
  · rintro ⟨sign, digits, rfl, hsign, hdigits⟩
    have hnatural := parseNatural_isSome.mpr hdigits
    simp only [List.mem_cons, List.not_mem_nil, or_false] at hsign
    rcases hsign with rfl | rfl | rfl
    · unfold parseSigned
      split
      · rename_i heq
        cases heq
        exact absurd (List.all_eq_true.mp hdigits.2 _ List.mem_cons_self) (by decide)
      · rename_i heq
        cases heq
        exact absurd (List.all_eq_true.mp hdigits.2 _ List.mem_cons_self) (by decide)
      · rwa [Option.isSome_map]
    · show ((parseNatural digits).map Int.ofNat).isSome
      rwa [Option.isSome_map]
    · show ((parseNatural digits).map (fun n ↦ -Int.ofNat n)).isSome
      rwa [Option.isSome_map]

theorem parseExponent_isSome : (parseExponent chars).isSome ↔ Exponent ['e', 'E'] chars := by
  cases chars with
  | nil => exact iff_of_true rfl (.inl rfl)
  | cons mark rest =>
    have hexponent : Exponent ['e', 'E'] (mark :: rest) ↔ mark ∈ ['e', 'E'] ∧ Signed rest := by
      simp [Exponent]
    rw [hexponent, ← parseSigned_isSome, parseExponent]
    split
    · rename_i hmark
      exact (and_iff_right hmark).symm
    · rename_i hmark
      exact iff_of_false nofun (fun h ↦ hmark h.1)

theorem splitPoint_pointed (hfraction : (fraction.getD []).all Char.isDigit)
    (hrest : ∀ c ∈ rest.head?, ¬c.isDigit ∧ c ≠ '.') :
    splitPoint (pointed fraction ++ rest) = (fraction.getD [], rest) := by
  cases fraction with
  | none =>
    show splitPoint rest = ([], rest)
    unfold splitPoint
    split
    · exact absurd rfl (hrest '.' rfl).2
    · rfl
  | some fraction =>
    show ((fraction ++ rest).takeWhile Char.isDigit, (fraction ++ rest).dropWhile Char.isDigit) = _
    have hfraction : fraction.all Char.isDigit := hfraction
    have hhead : ∀ c ∈ rest.head?, ¬c.isDigit := fun c hc ↦ (hrest c hc).1
    rw [takeWhile_append_of_head hfraction hhead, dropWhile_append_of_head hfraction hhead]
    rfl

theorem exists_pointed (chars : List Char) :
    ∃ fraction, (fraction.getD []).all Char.isDigit ∧ (splitPoint chars).1 = fraction.getD [] ∧
      chars = pointed fraction ++ (splitPoint chars).2 := by
  unfold splitPoint
  split
  · rename_i rest
    refine ⟨some (rest.takeWhile Char.isDigit), List.all_takeWhile, rfl, ?_⟩
    show '.' :: rest = '.' :: (rest.takeWhile Char.isDigit ++ rest.dropWhile Char.isDigit)
    rw [List.takeWhile_append_dropWhile]
  · exact ⟨none, rfl, rfl, rfl⟩

theorem head_exponent (h : Exponent ['e', 'E'] chars) :
    ∀ c ∈ chars.head?, ¬c.isDigit ∧ c ≠ '.' := by
  rcases h with rfl | ⟨mark, rest, rfl, hmark, -⟩
  · exact nofun
  · intro c hc
    cases hc
    simp only [List.mem_cons, List.not_mem_nil, or_false] at hmark
    rcases hmark with rfl | rfl
    all_goals decide

theorem head_pointed (h : ∀ c ∈ rest.head?, ¬c.isDigit ∧ c ≠ '.') :
    ∀ c ∈ (pointed fraction ++ rest).head?, ¬c.isDigit := by
  cases fraction with
  | none => exact fun c hc ↦ (h c hc).1
  | some fraction =>
    intro c hc
    cases hc
    decide

theorem parseDecimal_isSome :
    (parseDecimal chars).isSome ↔ Written Char.isDigit ['e', 'E'] chars := by
  constructor
  · intro h
    obtain ⟨fraction, hfraction, hfirst, hsplit⟩ := exists_pointed (chars.dropWhile Char.isDigit)
    unfold parseDecimal at h
    dsimp only at h
    split at h
    · rename_i hne
      rw [Option.isSome_map, parseExponent_isSome] at h
      refine ⟨chars.takeWhile Char.isDigit, fraction, _, ?_, List.all_takeWhile, hfraction, ?_, h⟩
      · rw [← hsplit, List.takeWhile_append_dropWhile]
      · rwa [← hfirst]
    · cases h
  · rintro ⟨whole, fraction, exponent, rfl, hwhole, hfraction, hne, hexponent⟩
    have hhead := head_exponent hexponent
    unfold parseDecimal
    rw [takeWhile_append_of_head hwhole (head_pointed hhead),
      dropWhile_append_of_head hwhole (head_pointed hhead), splitPoint_pointed hfraction hhead]
    dsimp only
    rw [if_pos hne, Option.isSome_map]
    exact parseExponent_isSome.mpr hexponent

theorem parseDecimal_stop {whole : List Char} {c : Char} (hwhole : whole.all Char.isDigit)
    (hc : ¬c.isDigit) (hmark : c ∉ ['.', 'e', 'E']) (rest : List Char) :
    parseDecimal (whole ++ c :: rest) = none := by
  have hhead : ∀ a ∈ (c :: rest).head?, ¬a.isDigit := by
    intro a ha
    cases ha
    exact hc
  have hsplit : splitPoint (c :: rest) = ([], c :: rest) := by
    unfold splitPoint
    split
    · rename_i heq
      cases heq
      exact absurd List.mem_cons_self hmark
    · rfl
  have hexponent : parseExponent (c :: rest) = none :=
    if_neg fun hmem ↦ hmark (List.mem_cons_of_mem _ hmem)
  unfold parseDecimal
  rw [takeWhile_append_of_head hwhole hhead, dropWhile_append_of_head hwhole hhead, hsplit]
  dsimp only
  rw [hexponent, Option.map_none, ite_self]

theorem parseDecimal_digits (hne : chars ≠ []) (hdigits : chars.all Char.isDigit) :
    parseDecimal chars = some (Nat.ofDigitChars 10 chars 0, 0) := by
  have htake := @takeWhile_append_of_head _ _ chars [] hdigits nofun
  have hdrop := @dropWhile_append_of_head _ _ chars [] hdigits nofun
  rw [List.append_nil] at htake hdrop
  unfold parseDecimal
  rw [htake, hdrop]
  show (if chars ++ [] ≠ [] then _ else none) = _
  rw [List.append_nil, if_pos hne]
  rfl

end Grammar

end Aldivine.Foundation.Decimals

namespace Aldivine.Foundation.Numerals

/-- `from_str` of an unsigned word of `w` bits: decimal digits, after a plus sign if there is one. -/
def parseUnsigned (w : ℕ) (chars : List Char) : Option ℕ :=
  let digits := match chars with
    | '+' :: rest => rest
    | chars => chars
  if digits.isEmpty ∨ ¬digits.all Char.isDigit then none
  else if Nat.ofDigitChars 10 digits 0 < 2 ^ w then some (Nat.ofDigitChars 10 digits 0)
  else none

theorem parseUnsigned_digits (w : ℕ) {chars : List Char} (hne : chars ≠ [])
    (hdigits : chars.all Char.isDigit) :
    parseUnsigned w chars =
      if Nat.ofDigitChars 10 chars 0 < 2 ^ w then some (Nat.ofDigitChars 10 chars 0) else none := by
  cases chars with
  | nil => exact absurd rfl hne
  | cons c rest =>
    have hplus : c ≠ '+' := by
      rintro rfl
      simp [Char.isDigit] at hdigits
    simp only [parseUnsigned]
    split
    · rename_i heq
      cases heq
      exact absurd rfl hplus
    · exact if_neg (by rw [hdigits]; simp)

theorem parseUnsigned_eq_none {w : ℕ} {chars : List Char} {c : Char} (hc : c ∈ chars)
    (hplus : c ≠ '+') (hdigit : c.isDigit = false) : parseUnsigned w chars = none := by
  have hbad {digits : List Char} (hmem : c ∈ digits) :
      digits.isEmpty ∨ ¬digits.all Char.isDigit := by
    refine .inr fun hall ↦ ?_
    rw [List.all_eq_true.mp hall c hmem] at hdigit
    cases hdigit
  simp only [parseUnsigned]
  split
  · exact if_pos (hbad ((List.mem_cons.mp hc).resolve_left hplus))
  · exact if_pos (hbad hc)

end Aldivine.Foundation.Numerals
