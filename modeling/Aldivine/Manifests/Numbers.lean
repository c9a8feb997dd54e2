import Aldivine.Foundation.Floats
import Aldivine.Manifests.Fidelity

namespace Aldivine.Manifests.Numbers

open Fidelity Foundation.Decimals Foundation.Fallible Foundation.Floats Foundation.Text
  Foundation.Utf8 Lexing Model Parsing

def float (debug : Tok Float.Model → String) : Host Float.Model where
  parseF64 text := parseFloat text.toList
  zero := Float.Model.ofNat 0
  asInt := wholeWord
  ofInt := Float.Model.ofInt
  debug := debug

section Numerals

def isNumberChar (c : Char) : Bool := c.isDigit || c ∈ ['.', 'e', 'E', '+', '-', 'x', 'X']

def run (text : List Char) : List Char := text.takeWhile isNumberChar

def WellFormed (chars : List Char) : Prop :=
  Written Char.isDigit ['e', 'E'] chars ∨ ∃ mark rest, chars = '0' :: mark :: rest ∧
    mark ∈ ['x', 'X'] ∧ Written Char.isHexDigit ['p', 'P'] rest

inductive Numeral
  | decimal (digits : List Char)
  | hex (mark : Char) (digits : List Char)

def Numeral.text : Numeral → List Char
  | .decimal digits => digits
  | .hex mark digits => '0' :: mark :: digits

def Numeral.Valid : Numeral → Prop
  | .decimal digits => digits ≠ [] ∧ digits.all Char.isDigit
  | .hex mark digits => mark ∈ ['x', 'X'] ∧ digits ≠ [] ∧ digits.all Char.isHexDigit

def hexValue (c : Char) : ℕ :=
  if c.isDigit then c.toNat - '0'.toNat
  else if c.isLower then c.toNat - 'a'.toNat + 10 else c.toNat - 'A'.toNat + 10

def Numeral.value : Numeral → ℕ
  | .decimal digits => Nat.ofDigitChars 10 digits 0
  | .hex _ digits => digits.foldl (fun n c ↦ 16 * n + hexValue c) 0

def Starts (n : Numeral) (text : List Char) : Prop :=
  n.Valid ∧ ∃ after, text = n.text ++ after ∧
    ∀ c ∈ after.head?, ¬(c.isAlphanum ∨ c = '_' ∨ c = '.')

/-- What a value read from the text may be: the number of a small integer numeral, and none of a
run that is no numeral. -/
def Faithful {F : Type} (text : List Char) (value : ManifestValue F) : Prop :=
  WellFormed (run text) ∧
    ∀ n, Starts n text → n.value < 2 ^ 53 → value = .int n.value

/-- The run is a numeral, and no small hexadecimal one but zero. -/
def Sound (text : List Char) : Prop :=
  WellFormed (run text) ∧ ∀ mark digits, Starts (.hex mark digits) text →
    (Numeral.hex mark digits).value < 2 ^ 53 → (Numeral.hex mark digits).value = 0

end Numerals

section Scanning

variable {F : Type} {host : Host F} {b : UInt8} {c : Char} {text rest : List Char}

theorem isNumber_high (b : UInt8) (hb : 128 ≤ b.toNat) : isNumber b = false := by
  have hdigit : isDigit b = false := by
    simp only [isDigit, Bool.and_eq_false_iff, decide_eq_false_iff_not, UInt8.le_iff_toNat_le]
    exact .inr (by show ¬b.toNat ≤ 57; omega)
  have hmark : b ∉ [46, 101, 69, 43, 45, 120, 88] := by
    intro hmem
    simp only [List.mem_cons, List.not_mem_nil, or_false] at hmem
    rcases hmem with rfl | rfl | rfl | rfl | rfl | rfl | rfl
    all_goals exact absurd hb (by decide)
  rw [isNumber, hdigit, decide_eq_false hmark]
  rfl

theorem onChar_isNumber : onChar isNumber false = isNumberChar := by
  have hascii : ∀ n : Fin 128, isNumber (UInt8.ofNat n.val) = isNumberChar (Char.ofNat n.val) := by
    decide
  funext c
  unfold onChar
  split
  · rename_i hc
    have heq := hascii ⟨c.toNat, hc⟩
    rwa [Char.ofNat_toNat] at heq
  · rename_i hc
    have hdigit : c.isDigit = false := by
      simp only [Char.isDigit, Bool.and_eq_false_iff, decide_eq_false_iff_not, ge_iff_le,
        UInt32.le_iff_toNat_le]
      exact .inr (by show ¬c.toNat ≤ 57; omega)
    have hmark : c ∉ ['.', 'e', 'E', '+', '-', 'x', 'X'] := by
      intro hmem
      simp only [List.mem_cons, List.not_mem_nil, or_false] at hmem
      rcases hmem with rfl | rfl | rfl | rfl | rfl | rfl | rfl
      all_goals exact absurd (by decide) hc
    rw [isNumberChar, hdigit, decide_eq_false hmark]
    rfl

theorem next_digit (hb : isDigit b = true) (rest : List UInt8) (line : ℕ) :
    next host ⟨b :: rest, line⟩ = .ok (some (.num (readNumber host ⟨b :: rest, line⟩).1),
      (readNumber host ⟨b :: rest, line⟩).2) := by
  have hne : ∀ x : UInt8, isDigit x = false → b ≠ x := by
    rintro x hx rfl
    rw [hb] at hx
    cases hx
  have hspace : isSpace b = false := by
    simp [isSpace, hne 32 rfl, hne 9 rfl, hne 13 rfl, hne 10 rfl]
  have hskip : skipWsAndComments ⟨b :: rest, line⟩ = .ok ⟨b :: rest, line⟩ := by
    rw [skipWsAndComments]
    split
    case h_3 b' rest' _ _ heq =>
      cases heq
      rw [hspace]
      rfl
    all_goals
      rename_i heq
      cases heq
    · exact absurd rfl (hne 45 rfl)
    · exact absurd rfl (hne 45 rfl)
  rw [next, hskip]
  show scan host ⟨b :: rest, line⟩ = _
  unfold scan
  split
  case h_9 heq =>
    cases heq
    exact if_pos hb
  all_goals
    rename_i heq
    cases heq
  all_goals exact absurd rfl (hne _ rfl)

theorem readNumber_encode (host : Host F) (text : List Char) (line : ℕ) :
    readNumber host ⟨encode text, line⟩ =
      ((host.parseF64 (String.ofList (run text))).getD host.zero,
        ⟨encode (text.dropWhile isNumberChar), line⟩) := by
  simp only [readNumber, takeWhile_encode isNumber_high, dropWhile_encode isNumber_high,
    onChar_isNumber, ofUtf8_encode, Option.getD_some]
  rfl

def numberOf (host : Host F) (text : List Char) : F :=
  (host.parseF64 (String.ofList (run text))).getD host.zero

theorem next_number (hc : c.isDigit = true) (rest : List Char) {gap : List UInt8}
    (hgap : Gap gap) (line : ℕ) :
    ∃ line', next host ⟨gap ++ encode (c :: rest), line⟩ =
      .ok (some (.num (numberOf host (c :: rest))),
        ⟨encode ((c :: rest).dropWhile isNumberChar), line'⟩) := by
  obtain ⟨line', hskip⟩ := hgap (encode (c :: rest)) line
  have hrange : 48 ≤ c.toNat ∧ c.toNat ≤ 57 := by
    simpa [Char.isDigit, UInt32.le_iff_toNat_le] using hc
  have hbyte : encode (c :: rest) = UInt8.ofNat c.toNat :: encode rest := by
    rw [encode_cons, encodeChar_ascii (by omega)]
    rfl
  have hdigit : isDigit (UInt8.ofNat c.toNat) = true := by
    simp [isDigit, UInt8.le_iff_toNat_le]
    omega
  refine ⟨line', ?_⟩
  have hnext := @next_digit _ host _ hdigit (encode rest) line'
  rw [← hbyte, readNumber_encode] at hnext
  rw [next, hskip]
  exact hnext

theorem parseValue_num {p r : Parser F} {n : F} (h : p.take host = .ok (some (.num n), r)) :
    ∃ hsize, parseValue host p = .ok (decodeNumber host n, ⟨r, hsize⟩) := by
  refine ⟨Parser.take_size h, ?_⟩
  rw [parseValue]
  split
  case h_4 htake =>
    rw [h] at htake
    cases htake
    rfl
  all_goals
    rename_i htake
    rw [h] at htake
    cases htake
  rename_i hnum _ _
  exact (hnum _ rfl).elim

end Scanning

section Values

variable {debug : Tok Float.Model → String} {text : List Char}

theorem decodeNumber_whole {F : Type} {host : Host F} {n : F} {i : ℤ} (h : host.asInt n = some i) :
    decodeNumber host n = .int i := by
  rw [decodeNumber, h]

theorem numberOf_float (text : List Char) :
    numberOf (float debug) text = (parseFloat (run text)).getD (Float.Model.ofNat 0) := by
  show (parseFloat (String.ofList (run text)).toList).getD _ = _
  rw [String.toList_ofList]
  rfl

theorem decodeNumber_none (h : parseFloat (run text) = none) :
    decodeNumber (float debug) (numberOf (float debug) text) = .int 0 := by
  have hword : wholeWord (Float.Model.ofNat 0) = some 0 := by decide +kernel
  rw [numberOf_float, h]
  exact decodeNumber_whole hword

theorem decodeNumber_digits {c : Char} {rest : List Char} (hrun : run text = c :: rest)
    (hdigits : (c :: rest).all Char.isDigit)
    (hsmall : Nat.ofDigitChars 10 (c :: rest) 0 < 2 ^ 53) :
    decodeNumber (float debug) (numberOf (float debug) text) =
      .int (Nat.ofDigitChars 10 (c :: rest) 0) := by
  have hc : c.isDigit := List.all_eq_true.mp hdigits c List.mem_cons_self
  rw [numberOf_float, hrun, parseFloat_digit hc, parseDecimal_digits (List.cons_ne_nil _ _) hdigits]
  exact decodeNumber_whole (wholeWord_ofScientific hsmall)

theorem mark_spec {mark : Char} (h : mark ∈ ['x', 'X']) :
    isNumberChar mark = true ∧ ¬mark.isDigit ∧ mark ∉ ['.', 'e', 'E'] := by
  simp only [List.mem_cons, List.not_mem_nil, or_false] at h
  rcases h with rfl | rfl
  all_goals decide

theorem sign_spec {sign : Char} (h : sign ∈ ['+', '-']) :
    ¬sign.isDigit ∧ sign ∉ ['.', 'e', 'E'] ∧ sign ∉ ['x', 'X'] := by
  simp only [List.mem_cons, List.not_mem_nil, or_false] at h
  rcases h with rfl | rfl
  all_goals decide

theorem parseFloat_hex {mark : Char} (hmark : mark ∈ ['x', 'X']) (rest : List Char) :
    parseFloat ('0' :: mark :: rest) = none := by
  obtain ⟨-, hdigit, hpoint⟩ := mark_spec hmark
  have hstop := @parseDecimal_stop ['0'] mark rfl hdigit hpoint rest
  rw [parseFloat_digit rfl]
  exact congrArg _ hstop

theorem run_cons {c : Char} (h : isNumberChar c = true) (rest : List Char) :
    run (c :: rest) = c :: run rest := List.takeWhile_cons_of_pos h

theorem isNumberChar_of_isDigit {c : Char} (h : c.isDigit = true) : isNumberChar c = true := by
  rw [isNumberChar, h, Bool.true_or]

theorem sign_of_isNumberChar {c : Char} (hc : isNumberChar c = true)
    (hend : ¬(c.isAlphanum ∨ c = '_' ∨ c = '.')) : c ∈ ['+', '-'] := by
  have halnum : c.isAlphanum = false := by
    rw [Bool.eq_false_iff]
    exact fun h ↦ hend (.inl h)
  rw [Char.isAlphanum, Bool.or_eq_false_iff] at halnum
  rw [isNumberChar, halnum.2, Bool.false_or, decide_eq_true_eq] at hc
  simp only [List.mem_cons, List.not_mem_nil, or_false] at hc
  rcases hc with rfl | rfl | rfl | rfl | rfl | rfl | rfl
  all_goals
    revert hend
    decide

theorem run_decimal {digits after : List Char} (hdigits : digits.all Char.isDigit)
    (hends : ∀ c ∈ after.head?, ¬(c.isAlphanum ∨ c = '_' ∨ c = '.')) :
    run (digits ++ after) = digits ∨
      ∃ sign more, sign ∈ ['+', '-'] ∧ run (digits ++ after) = digits ++ sign :: more := by
  have hall : ∀ c ∈ digits, isNumberChar c = true :=
    fun c hc ↦ isNumberChar_of_isDigit (List.all_eq_true.mp hdigits c hc)
  rw [run, List.takeWhile_append_of_pos hall]
  cases after with
  | nil => exact .inl (List.append_nil _)
  | cons c after =>
    cases hc : isNumberChar c with
    | false =>
      left
      rw [List.takeWhile_cons_of_neg (by simp [hc]), List.append_nil]
    | true =>
      right
      refine ⟨c, after.takeWhile isNumberChar, ?_, by rw [List.takeWhile_cons_of_pos hc]⟩
      exact sign_of_isNumberChar hc (hends c rfl)

/-- A decimal numeral with a sign after it is no numeral. -/
theorem malformed_sign {digits : List Char} (hdigits : digits.all Char.isDigit) {sign : Char}
    (hsign : sign ∈ ['+', '-']) (more : List Char) : ¬WellFormed (digits ++ sign :: more) := by
  obtain ⟨hdigit, hpoint, hmark⟩ := sign_spec hsign
  rintro (hdecimal | ⟨mark, rest, heq, hmem, -⟩)
  · rw [← parseDecimal_isSome, parseDecimal_stop hdigits hdigit hpoint] at hdecimal
    cases hdecimal
  · cases digits with
    | nil =>
      cases heq
      revert hsign
      decide
    | cons d digits =>
      cases digits with
      | nil =>
        cases heq
        exact hmark hmem
      | cons d' digits =>
        cases heq
        have hd := List.all_eq_true.mp hdigits mark (by simp)
        exact (mark_spec hmem).2.1 hd

theorem decodeNumber_malformed {c : Char} (hc : c.isDigit) {rest : List Char}
    (h : ¬WellFormed (run (c :: rest))) :
    decodeNumber (float debug) (numberOf (float debug) (c :: rest)) = .int 0 := by
  have hdecimal : ¬(parseDecimal (run (c :: rest))).isSome :=
    fun hsome ↦ h (.inl (parseDecimal_isSome.mp hsome))
  rw [Bool.not_eq_true, Option.isSome_eq_false_iff, Option.isNone_iff_eq_none] at hdecimal
  apply decodeNumber_none
  rw [run_cons (isNumberChar_of_isDigit hc)] at hdecimal ⊢
  rw [parseFloat_digit hc, hdecimal]
  rfl

/-- The value that is read is faithful exactly where the text is sound. -/
theorem faithful_iff (text : List Char) :
    Faithful text (decodeNumber (float debug) (numberOf (float debug) text)) ↔ Sound text := by
  have hhex : ∀ mark digits, Starts (.hex mark digits) text →
      decodeNumber (float debug) (numberOf (float debug) text) = .int 0 := by
    rintro mark digits ⟨hvalid, after, htext, -⟩
    apply decodeNumber_none
    rw [htext]
    show parseFloat (run ('0' :: mark :: (digits ++ after))) = none
    rw [run_cons rfl, run_cons (mark_spec hvalid.1).1]
    exact parseFloat_hex hvalid.1 _
  refine and_congr_right fun hwell ↦ ?_
  constructor
  · intro hall mark digits hstarts hsmall
    have hvalue := hall _ hstarts hsmall
    rw [hhex mark digits hstarts] at hvalue
    exact Int.natCast_eq_zero.mp (ManifestValue.int.inj hvalue).symm
  · intro hzero n hstarts hsmall
    cases n with
    | hex mark digits =>
      rw [hhex mark digits hstarts, hzero mark digits hstarts hsmall]
      rfl
    | decimal digits =>
      obtain ⟨⟨hne, hdigits⟩, after, htext, hends⟩ := hstarts
      have htext : text = digits ++ after := htext
      rcases run_decimal hdigits hends with hrun | ⟨sign, more, hsign, hrun⟩
      · rw [← htext] at hrun
        cases digits with
        | nil => exact absurd rfl hne
        | cons d digits => exact decodeNumber_digits hrun hdigits hsmall
      · rw [htext, hrun] at hwell
        exact absurd hwell (malformed_sign hdigits hsign more)

end Values

section Manifests

variable {F : Type} {host : Host F} {out out' m : NormalizedManifest F} {p : Parser F}
  {name : String} {value : ManifestValue F} {line : ℕ}

def scalarNames : List String :=
  ["fx_version", "resource_manifest_version", "ui_page", "this_is_a_map", "data_file",
    "loadscreen", "loadscreen_manual_shutdown", "server_only", "lua54", "node_version",
    "clr_disable_task_scheduler", "use_experimental_fxv2_oal", "convar_category", "escrow_ignore"]

theorem applyDirective_custom (hlist : listField name = none) (hscalar : name ∉ scalarNames) :
    ∃ out', applyDirective host out name value line = .ok out' ∧
      out'.custom = out.custom ++ [(name, value)] := by
  unfold applyDirective
  dsimp only
  rw [hlist]
  dsimp only
  split
  case h_15 => exact ⟨_, rfl, rfl⟩
  all_goals exact absurd (by decide) hscalar

theorem extend_custom (field : ListField) (more : List String) :
    (field.extend more out).custom = out.custom := by
  cases field with
  | _ => rfl

theorem applyDirective_custom_grows (h : applyDirective host out name value line = .ok out') :
    out.custom <+: out'.custom := by
  unfold applyDirective at h
  dsimp only at h
  split at h
  · obtain ⟨more, -, rfl⟩ := strList_eq_ok.mp h
    refine ⟨[], ?_⟩
    rw [extend_custom, List.append_nil]
  split at h
  case h_5 =>
    split at h
    · cases h
      exact List.prefix_refl _
    · cases h
  case h_13 =>
    obtain ⟨category, -, h⟩ := bind_eq_ok.mp h
    cases h
    exact List.prefix_refl _
  case h_15 =>
    cases h
    exact List.prefix_append _ _
  all_goals
    cases h
    exact List.prefix_refl _

theorem parseManifest_custom (h : parseManifest host p out = .ok m) : out.custom <+: m.custom :=
  @parseManifest_keeps _ _ _ _ _ (fun out m ↦ out.custom <+: m.custom)
    (fun _ ↦ List.prefix_refl _) (fun _ _ _ ↦ List.IsPrefix.trans)
    (fun _ _ _ _ _ ↦ applyDirective_custom_grows) h

/-- The next token of `p` is read from the bytes, now or before. -/
def Ahead (host : Host F) (p : Parser F) (bytes : List UInt8) : Prop :=
  ∃ line tok lex, next host ⟨bytes, line⟩ = .ok (tok, lex) ∧
    p.take host = .ok (tok, ⟨lex, none⟩)

theorem parseValue_ahead {c : Char} (hc : c.isDigit = true) {rest : List Char} {gap : List UInt8}
    (hgap : Gap gap) (hahead : Ahead host p (gap ++ encode (c :: rest))) :
    ∃ r, parseValue host p = .ok (decodeNumber host (numberOf host (c :: rest)), r) := by
  obtain ⟨line, tok, lex, hnext, htake⟩ := hahead
  obtain ⟨line', hnumber⟩ := @next_number _ host _ hc rest gap hgap line
  rw [hnumber] at hnext
  cases hnext
  obtain ⟨hsize, hvalue⟩ := parseValue_num htake
  exact ⟨_, hvalue⟩

theorem decodeNumber_asStr (host : Host F) (n : F) : (decodeNumber host n).asStr = none := by
  unfold decodeNumber
  split
  · rfl
  · rfl

theorem parseDirective_number {c : Char} (hc : c.isDigit = true) {rest : List Char}
    (hlist : listField name = none) (hscalar : name ∉ scalarNames) {gap : List UInt8}
    {assign : Option (List UInt8)} (hgap : Gap gap) (hassign : ∀ g ∈ assign, Gap g)
    (htake : p.take host =
      .ok (some (.ident name), ⟨⟨before gap assign ++ encode (c :: rest), line⟩, none⟩)) :
    ∃ q out', parseDirective host p out = .ok (some (q, out')) ∧
      out'.custom = out.custom ++ [(name, decodeNumber host (numberOf host (c :: rest)))] := by
  obtain ⟨r, line', hskip, hnumber⟩ := @skipAssign_before _ host gap _ line assign _
    (.num (numberOf host (c :: rest))) hgap hassign nofun
    (fun g line hg ↦ next_number hc rest hg line)
  obtain ⟨hsize, hvalue⟩ := parseValue_num hnumber
  have hfold := @foldTable_scalar _ host _ (decodeNumber_asStr host (numberOf host (c :: rest)))
    ⟨⟨encode ((c :: rest).dropWhile isNumberChar), line'⟩, none⟩
  obtain ⟨out', happly, hcustom⟩ := @applyDirective_custom _ host out name
    (decodeNumber host (numberOf host (c :: rest))) line hlist hscalar
  have hless := hsize.trans_le (r.property.trans (Parser.take_size htake).le)
  refine ⟨⟨_, hless⟩, out', ?_, hcustom⟩
  exact (parseDirective_ident htake).mpr ⟨r, _, _, _, _, hskip, hvalue, hfold, rfl, happly⟩

end Manifests

/-- A number is read as what it writes, and only numbers are read, exactly where the run is a
numeral of Lua and no hexadecimal one but zero: for a value in any place, and for what an accepted
manifest keeps of a directive. -/
theorem number_kept_iff (debug : Tok Float.Model → String) (c : Char) (rest : List Char)
    (hc : c.isDigit = true) (gap : List UInt8) (hgap : Gap gap) :
    (∀ p, Ahead (float debug) p (gap ++ encode (c :: rest)) →
      ((∀ value r, parseValue (float debug) p = .ok (value, r) → Faithful (c :: rest) value) ↔
        Sound (c :: rest))) ∧
    ∀ src p out name assign line m, Reaches (float debug) src p out → listField name = none →
      name ∉ scalarNames → (∀ g ∈ assign, Gap g) →
      p.take (float debug) =
        .ok (some (.ident name), ⟨⟨before gap assign ++ encode (c :: rest), line⟩, none⟩) →
      parseFxmanifest (float debug) src = .ok m →
      ((∃ value, m.custom[out.custom.length]? = some (name, value) ∧
        Faithful (c :: rest) value) ↔ Sound (c :: rest)) := by
  have hfaithful := @faithful_iff debug (c :: rest)
  constructor
  · intro p hahead
    obtain ⟨r, hvalue⟩ := parseValue_ahead hc hgap hahead
    rw [← hfaithful]
    constructor
    · intro h
      exact h _ r hvalue
    · intro h value r' hvalue'
      cases hvalue.symm.trans hvalue'
      exact h
  · intro src p out name assign line m hreach hlist hscalar hassign htake hm
    obtain ⟨q, out', hdirective, hcustom⟩ :=
      @parseDirective_number _ _ out _ _ _ _ hc rest hlist hscalar gap assign hgap hassign htake
    rw [(Reaches.next hreach hdirective).parse_eq] at hm
    obtain ⟨more, hmore⟩ := parseManifest_custom hm
    have hentry : m.custom[out.custom.length]? =
        some (name, decodeNumber (float debug) (numberOf (float debug) (c :: rest))) := by
      rw [← hmore, hcustom, List.append_assoc, List.getElem?_append_right le_rfl, Nat.sub_self]
      rfl
    rw [← hfaithful]
    constructor
    · intro h
      obtain ⟨value, hvalue, h⟩ := h
      cases hentry.symm.trans hvalue
      exact h
    · intro h
      exact ⟨_, hentry, h⟩

section Samples

def plain : Host Float.Model := float fun _ ↦ ""

def following : String := "\nfx_version 'cerulean'"

def withNumber (number : String) : String := "answer " ++ number ++ following

theorem sound_decimal : Sound ('4' :: ("2" ++ following).toList) := by
  have hrun : run ('4' :: ("2" ++ following).toList) = ['4', '2'] := by decide +kernel
  refine ⟨?_, ?_⟩
  · rw [hrun]
    exact .inl ⟨['4', '2'], none, [], rfl, rfl, rfl, nofun, .inl rfl⟩
  · rintro mark digits ⟨-, after, htext, -⟩
    exact absurd (List.cons.inj htext).1 (by decide)

theorem decimal_kept :
    ∃ m, parseFxmanifest plain (withNumber "42") = .ok m ∧
      ∃ value, m.custom[0]? = some ("answer", value) ∧
        Faithful ('4' :: ("2" ++ following).toList) value := by
  have hparse : (parseFxmanifest plain (withNumber "42")).toOption.isSome = true := by
    decide +kernel
  have htake : Parser.take plain (Parser.new (withNumber "42")) =
      .ok (some (.ident "answer"),
        ⟨⟨before [32] none ++ encode ('4' :: ("2" ++ following).toList), 1⟩, none⟩) :=
    toOption_eq_some.mp (by decide +kernel)
  obtain ⟨m, hm⟩ := Option.isSome_iff_exists.mp hparse
  obtain ⟨-, hkept⟩ := number_kept_iff (fun _ ↦ "") '4' ("2" ++ following).toList rfl [32]
    (gap_space (List.forall_mem_singleton.mpr rfl))
  have hm := toOption_eq_some.mp hm
  exact ⟨m, hm, (hkept (withNumber "42") _ {} "answer" none 1 m .start rfl (by decide) nofun htake
    hm).mpr sound_decimal⟩

/-- The whole numbers among the values that a manifest keeps. -/
def kept (m : NormalizedManifest Float.Model) : List (String × Option ℤ) :=
  m.custom.map fun x ↦ (x.1, match x.2 with
    | .int n => some n
    | _ => none)

/-- `0x10` is read as zero, and so is `1-2`, which is no numeral. -/
theorem numerals_lost :
    (Starts (.hex 'x' ['1', '0']) ("0x10" ++ following).toList ∧
      (Numeral.hex 'x' ['1', '0']).value = 16 ∧
      (parseFxmanifest plain (withNumber "0x10")).toOption.map kept = some [("answer", some 0)]) ∧
    ¬WellFormed (run ("1-2" ++ following).toList) ∧
      (parseFxmanifest plain (withNumber "1-2")).toOption.map kept =
        some [("answer", some 0)] := by
  have hrun : run ("1-2" ++ following).toList = ['1'] ++ '-' :: ['2'] := by decide +kernel
  have hends : ∀ c ∈ following.toList.head?, ¬(c.isAlphanum ∨ c = '_' ∨ c = '.') := by
    have hhead : following.toList.head? = some '\n' := by decide +kernel
    intro c hc
    rw [hhead] at hc
    cases hc
    decide
  refine ⟨⟨⟨⟨by simp, by simp, rfl⟩, following.toList, by decide +kernel, hends⟩, rfl,
    by decide +kernel⟩, ?_, by decide +kernel⟩
  rw [hrun]
  exact malformed_sign rfl (by simp) _

end Samples

end Aldivine.Manifests.Numbers
