import Aldivine.Manifests.Parsing

namespace Aldivine.Manifests.Strings

open Foundation.Fallible Foundation.Pieces Foundation.Text Foundation.Utf8 Lexing Model Parsing

section Spelling

inductive Quote
  | single
  | double
deriving DecidableEq

def Quote.char : Quote → Char
  | .single => '\''
  | .double => '"'

def Quote.byte (q : Quote) : UInt8 := UInt8.ofNat q.char.toNat

def namedEscapes : List (Char × Char) :=
  [('n', '\n'), ('t', '\t'), ('r', '\r'), ('\\', '\\'), ('\'', '\''), ('"', '"'), ('a', '\x07'),
    ('b', '\x08'), ('f', '\x0C'), ('v', '\x0B')]

inductive Piece
  | plain (c : Char)
  | named (letter c : Char)
  | hex (upper : Bool) (high : Fin 8) (low : Fin 16)
  | decimal (n : Fin 128)

def digit (upper : Bool) (n : ℕ) : Char :=
  if n < 10 then Char.ofNat (48 + n)
  else if upper then Char.ofNat (55 + n) else Char.ofNat (87 + n)

def Piece.char : Piece → Char
  | .plain c => c
  | .named _ c => c
  | .hex _ high low => Char.ofNat (high.val * 16 + low.val)
  | .decimal n => Char.ofNat n.val

def Piece.text : Piece → List Char
  | .plain c => [c]
  | .named letter _ => ['\\', letter]
  | .hex upper high low => ['\\', 'x', digit upper high.val, digit upper low.val]
  | .decimal n =>
    ['\\', digit false (n.val / 100), digit false (n.val / 10 % 10), digit false (n.val % 10)]

def isControl (c : Char) : Bool := decide (c.toNat < 32) || c.toNat == 127

/-- Quotes, backslashes and control characters are escaped. -/
def Piece.Valid (q : Quote) : Piece → Prop
  | .plain c => c ≠ q.char ∧ c ≠ '\\' ∧ isControl c = false
  | .named letter c => (letter, c) ∈ namedEscapes
  | .hex _ _ _ => True
  | .decimal _ => True

instance (q : Quote) : (x : Piece) → Decidable (x.Valid q)
  | .plain c => inferInstanceAs (Decidable (c ≠ q.char ∧ c ≠ '\\' ∧ isControl c = false))
  | .named letter c => inferInstanceAs (Decidable ((letter, c) ∈ namedEscapes))
  | .hex _ _ _ => isTrue trivial
  | .decimal _ => isTrue trivial

def literal (q : Quote) (pieces : List Piece) : List Char :=
  q.char :: (pieces.flatMap Piece.text ++ [q.char])

def spellChar (q : Quote) (c : Char) : Piece :=
  if c = q.char then .named c c
  else if c = '\\' then .named '\\' '\\'
  else if h : c.toNat < 128 ∧ isControl c = true then
    .hex false ⟨c.toNat / 16, by omega⟩ ⟨c.toNat % 16, by omega⟩
  else .plain c

theorem exists_spelling (q : Quote) (text : List Char) :
    ∃ pieces : List Piece, pieces.map Piece.char = text ∧ ∀ x ∈ pieces, x.Valid q := by
  have hquote : (q.char, q.char) ∈ namedEscapes := by
    cases q with
    | single => decide
    | double => decide
  have hescape : ('\\', '\\') ∈ namedEscapes := by decide
  have hchar (c : Char) : (spellChar q c).char = c ∧ (spellChar q c).Valid q := by
    unfold spellChar
    split
    · rename_i hc
      rw [hc]
      exact ⟨rfl, hquote⟩
    split
    · rename_i hc
      exact ⟨hc.symm, hescape⟩
    split
    · refine ⟨?_, trivial⟩
      rw [Piece.char, Nat.div_add_mod', Char.ofNat_toNat]
    · rename_i hfirst hsecond hcontrol
      refine ⟨rfl, hfirst, hsecond, ?_⟩
      by_contra hc
      rw [Bool.not_eq_false] at hc
      refine hcontrol ⟨?_, hc⟩
      simp only [isControl, Bool.or_eq_true, decide_eq_true_eq, beq_iff_eq] at hc
      omega
  refine ⟨text.map (spellChar q), ?_, ?_⟩
  · rw [List.map_map]
    exact List.map_id'' (fun c ↦ (hchar c).1) text
  · intro x hx
    obtain ⟨c, -, rfl⟩ := List.mem_map.mp hx
    exact (hchar c).2

end Spelling

section Reading

def Piece.read : Piece → List Char
  | .plain c => (String.utf8EncodeChar c).map asChar
  | .named _ c => [c]
  | .hex _ high low => [Char.ofNat (high.val * 16 + low.val)]
  | .decimal n =>
    [digit false (n.val / 100), digit false (n.val / 10 % 10), digit false (n.val % 10)]

/-- ASCII, and not written with a decimal escape. -/
def Piece.kept : Piece → Bool
  | .plain c => decide (c.toNat < 128)
  | .named _ _ => true
  | .hex _ _ _ => true
  | .decimal _ => false

variable {quote : UInt8} {start line : ℕ} {out : List Char}

theorem readString_cons (b : UInt8) (rest : List UInt8) :
    readString quote start out ⟨b :: rest, line⟩ =
      if b = quote then .ok (out, ⟨rest, line⟩)
      else if b = 92 then
        match readEscape line rest with
        | none => .error (.syntaxError start "unterminated escape")
        | some (c, lex) => readString quote start (out ++ [c]) lex
      else if b = 10 then .error (.syntaxError start "newline in string")
      else readString quote start (out ++ [asChar b]) ⟨rest, line⟩ := by
  rw [readString]
  split
  · rename_i hrest
    cases hrest
  rename_i hrest
  cases hrest
  split
  · rfl
  split
  · split
    · rename_i hnone
      rw [hnone]
    · rename_i hsome
      rw [hsome]
  · rfl

theorem readString_escape {rest : List UInt8} {c : Char} {lex : Lexer} (hquote : quote ≠ 92)
    (h : readEscape line rest = some (c, lex)) :
    readString quote start out ⟨92 :: rest, line⟩ = readString quote start (out ++ [c]) lex := by
  rw [readString_cons, if_neg hquote.symm, if_pos rfl, h]

theorem readString_copy {bytes : List UInt8} (h : ∀ b ∈ bytes, b ≠ quote ∧ b ≠ 92 ∧ b ≠ 10)
    (rest : List UInt8) :
    readString quote start out ⟨bytes ++ rest, line⟩ =
      readString quote start (out ++ bytes.map asChar) ⟨rest, line⟩ := by
  induction bytes generalizing out with
  | nil => rw [List.nil_append, List.map_nil, List.append_nil]
  | cons b bytes ih =>
    obtain ⟨⟨hquote, hescape, hnewline⟩, hbytes⟩ := List.forall_mem_cons.mp h
    rw [List.cons_append, readString_cons, if_neg hquote, if_neg hescape, if_neg hnewline,
      ih hbytes, List.map_cons, List.append_assoc, List.singleton_append]

theorem quote_byte (q : Quote) : q.byte ≠ 92 ∧ q.byte ≠ 10 ∧ q.byte.toNat < 128 := by
  cases q with
  | single => decide
  | double => decide

theorem encodeChar_ne {q : Quote} {c : Char} (hquote : c ≠ q.char) (hescape : c ≠ '\\')
    (hcontrol : isControl c = false) :
    ∀ b ∈ String.utf8EncodeChar c, b ≠ q.byte ∧ b ≠ 92 ∧ b ≠ 10 := by
  have hq : q.char.toNat < 128 := by
    cases q with
    | single => decide
    | double => decide
  by_cases hc : c.toNat < 128
  · have hnewline : c ≠ '\n' := by
      intro heq
      rw [heq] at hcontrol
      exact absurd hcontrol (by decide)
    rw [encodeChar_ascii hc, List.forall_mem_singleton]
    exact ⟨(ofNat_eq_iff hc hq).not.mpr hquote,
      (ofNat_eq_iff hc (by decide : '\\'.toNat < 128)).not.mpr hescape,
      (ofNat_eq_iff hc (by decide : '\n'.toNat < 128)).not.mpr hnewline⟩
  · intro b hb
    have hhigh := (encodeChar_high (Nat.le_of_not_lt hc)).1 b hb
    exact ⟨byte_ne_of_high hhigh (quote_byte q).2.2, byte_ne_of_high hhigh (by decide),
      byte_ne_of_high hhigh (by decide)⟩

theorem readEscape_named {letter c : Char} (h : (letter, c) ∈ namedEscapes) (rest : List UInt8) :
    readEscape line (String.utf8EncodeChar letter ++ rest) = some (c, ⟨rest, line⟩) := by
  simp only [namedEscapes, List.mem_cons, List.not_mem_nil, or_false, Prod.mk.injEq] at h
  rcases h with h | h | h | h | h | h | h | h | h | h
  all_goals
    obtain ⟨rfl, rfl⟩ := h
    rfl

theorem digit_byte (upper : Bool) (n : Fin 16) : (digit upper n.val).toNat < 128 ∧
    hexVal (UInt8.ofNat (digit upper n.val).toNat) = some n.val ∧
    UInt8.ofNat (digit upper n.val).toNat ≠ 10 := by
  revert upper n
  decide

theorem readEscape_hex (upper : Bool) (high : Fin 8) (low : Fin 16) (rest : List UInt8) :
    readEscape line (encode ['x', digit upper high.val, digit upper low.val] ++ rest) =
      some (Char.ofNat (high.val * 16 + low.val), ⟨rest, line⟩) := by
  obtain ⟨hhigh, hfirst, hline⟩ := digit_byte upper (high.castLE (by decide))
  obtain ⟨hlow, hsecond, hline'⟩ := digit_byte upper low
  rw [Fin.val_castLE] at hhigh hfirst hline
  rw [encode_cons, encode_cons, encode_cons, encode_nil, encodeChar_ascii hhigh,
    encodeChar_ascii hlow]
  show some (Char.ofNat ((hexVal (UInt8.ofNat (digit upper high.val).toNat)).getD 0 * 16 +
    (hexVal (UInt8.ofNat (digit upper low.val).toNat)).getD 0), (⟨rest, bumpLine
      (bumpLine line (UInt8.ofNat (digit upper high.val).toNat))
      (UInt8.ofNat (digit upper low.val).toNat)⟩ : Lexer)) = _
  rw [hfirst, hsecond, bumpLine, if_neg hline', bumpLine, if_neg hline]
  rfl

theorem readEscape_digit (n : Fin 10) (rest : List UInt8) :
    readEscape line (String.utf8EncodeChar (digit false n.val) ++ rest) =
      some (digit false n.val, ⟨rest, line⟩) := by
  match n with
  | 0 | 1 | 2 | 3 | 4 | 5 | 6 | 7 | 8 | 9 => rfl

theorem digit_plain (q : Quote) (n : Fin 10) : (Piece.plain (digit false n.val)).Valid q ∧
    (digit false n.val).toNat < 128 := by
  have hfacts : digit false n.val ≠ q.char ∧ digit false n.val ≠ '\\' ∧
      isControl (digit false n.val) = false ∧ (digit false n.val).toNat < 128 := by
    cases q with
    | single =>
      revert n
      decide
    | double =>
      revert n
      decide
  exact ⟨⟨hfacts.1, hfacts.2.1, hfacts.2.2.1⟩, hfacts.2.2.2⟩

theorem readString_plain {q : Quote} {c : Char} (h : (Piece.plain c).Valid q)
    (rest : List UInt8) :
    readString q.byte start out ⟨String.utf8EncodeChar c ++ rest, line⟩ =
      readString q.byte start (out ++ (Piece.plain c).read) ⟨rest, line⟩ :=
  readString_copy (encodeChar_ne h.1 h.2.1 h.2.2) rest

theorem read_plain {c : Char} (h : c.toNat < 128) : (Piece.plain c).read = [c] := by
  rw [Piece.read, encodeChar_ascii h, List.map_singleton, asChar_ofNat h]

theorem readString_piece {q : Quote} {x : Piece} (h : x.Valid q) (rest : List UInt8) :
    readString q.byte start out ⟨encode x.text ++ rest, line⟩ =
      readString q.byte start (out ++ x.read) ⟨rest, line⟩ := by
  have hquote := (quote_byte q).1
  cases x with
  | plain c =>
    have htext : encode (Piece.plain c).text = String.utf8EncodeChar c := List.append_nil _
    rw [htext]
    exact readString_plain h rest
  | named letter c =>
    have htext : encode (Piece.named letter c).text ++ rest =
        92 :: (String.utf8EncodeChar letter ++ rest) := by
      rw [Piece.text, encode_cons, encode_cons, encode_nil, List.append_nil]
      rfl
    rw [htext]
    exact readString_escape hquote (readEscape_named h rest)
  | hex upper high low =>
    exact readString_escape hquote (readEscape_hex upper high low rest)
  | decimal n =>
    -- the first digit is taken for the escaped letter, the others are copied
    obtain ⟨hfirst, -⟩ := digit_plain q ⟨n.val / 100, by omega⟩
    obtain ⟨hsecond, hten⟩ := digit_plain q ⟨n.val / 10 % 10, by omega⟩
    obtain ⟨hthird, hone⟩ := digit_plain q ⟨n.val % 10, by omega⟩
    have htext : encode (Piece.decimal n).text ++ rest =
        92 :: (String.utf8EncodeChar (digit false (n.val / 100)) ++
          (String.utf8EncodeChar (digit false (n.val / 10 % 10)) ++
            (String.utf8EncodeChar (digit false (n.val % 10)) ++ rest))) := by
      simp only [Piece.text, encode_cons, encode_nil, List.append_nil, List.append_assoc]
      rfl
    rw [htext, readString_escape hquote (readEscape_digit ⟨n.val / 100, by omega⟩ _),
      readString_plain hsecond, readString_plain hthird, read_plain hten, read_plain hone,
      List.append_assoc, List.append_assoc]
    rfl

theorem readString_pieces {q : Quote} {pieces : List Piece} (h : ∀ x ∈ pieces, x.Valid q)
    (rest : List UInt8) :
    readString q.byte start out ⟨encode (pieces.flatMap Piece.text) ++ q.byte :: rest, line⟩ =
      .ok (out ++ pieces.flatMap Piece.read, ⟨rest, line⟩) := by
  induction pieces generalizing out with
  | nil =>
    rw [List.flatMap_nil, encode_nil, List.nil_append, readString_cons, if_pos rfl,
      List.flatMap_nil, List.append_nil]
  | cons x pieces ih =>
    obtain ⟨hx, hpieces⟩ := List.forall_mem_cons.mp h
    rw [List.flatMap_cons, encode_append, List.append_assoc, readString_piece hx, ih hpieces,
      List.flatMap_cons, List.append_assoc]

end Reading

section Kept

variable {q : Quote} {pieces : List Piece}

theorem read_ne_nil (x : Piece) : x.read ≠ [] := by
  cases x with
  | plain c =>
    rw [Piece.read, ne_eq, List.map_eq_nil_iff]
    exact String.utf8EncodeChar_ne_nil
  | named letter c => exact List.cons_ne_nil _ _
  | hex upper high low => exact List.cons_ne_nil _ _
  | decimal n => exact List.cons_ne_nil _ _

theorem read_eq_iff (x : Piece) : x.read = [x.char] ↔ x.kept = true := by
  cases x with
  | plain c =>
    have hplain := asChar_encode_iff [c]
    rw [encode_cons, encode_nil, List.append_nil, List.forall_mem_singleton] at hplain
    rw [Piece.read, Piece.char, Piece.kept, decide_eq_true_eq]
    exact hplain
  | named letter c => exact iff_of_true rfl rfl
  | hex upper high low => exact iff_of_true rfl rfl
  | decimal n =>
    refine iff_of_false (fun h ↦ ?_) Bool.false_ne_true
    have hlen : 3 = 1 := congrArg List.length h
    cases hlen

/-- A literal is read as the text it writes exactly when each of its pieces is. -/
theorem read_pieces_iff (pieces : List Piece) :
    pieces.flatMap Piece.read = pieces.map Piece.char ↔ ∀ x ∈ pieces, x.kept = true := by
  rw [flatMap_eq_map_iff (fun x _ ↦ read_ne_nil x)]
  exact forall₂_congr (fun x _ ↦ read_eq_iff x)

def sentinels : List String := ["__bool_true__", "__bool_false__", "__nil__"]

theorem decodeLiteral_cases {F : Type} (text : String) :
    (text ∉ sentinels ∧ decodeLiteral text = (.str text : ManifestValue F)) ∨
      text ∈ sentinels ∧ ((∃ b, decodeLiteral text = (.bool b : ManifestValue F)) ∨
        decodeLiteral text = (.nil : ManifestValue F)) := by
  unfold decodeLiteral
  split
  · exact .inr ⟨by decide, .inl ⟨true, rfl⟩⟩
  · exact .inr ⟨by decide, .inl ⟨false, rfl⟩⟩
  · exact .inr ⟨by decide, .inr rfl⟩
  · rename_i htrue hfalse hnil
    refine .inl ⟨?_, rfl⟩
    simp only [sentinels, List.mem_cons, List.not_mem_nil, or_false, not_or]
    exact ⟨htrue, hfalse, hnil⟩

end Kept

end Aldivine.Manifests.Strings
