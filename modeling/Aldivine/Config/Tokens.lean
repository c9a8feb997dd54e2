import Aldivine.Config.Parsing

namespace Aldivine.Config.Tokens

open Foundation.Fallible Foundation.Text Foundation.Utf8 Parsing Syntax

section Characters

def isWs (c : Char) : Bool := onChar isAsciiWhitespace false c

def isBare (c : Char) : Bool := onChar isBareByte true c

def isVerb (c : Char) : Bool := onChar isVerbByte true c

theorem isAsciiWhitespace_high {b : UInt8} (h : 128 ≤ b.toNat) : isAsciiWhitespace b = false := by
  simp only [isAsciiWhitespace, Bool.or_eq_false_iff, beq_eq_false_iff_ne, ne_eq]
  exact ⟨⟨⟨⟨byte_ne_of_high h (by decide), byte_ne_of_high h (by decide)⟩,
    byte_ne_of_high h (by decide)⟩, byte_ne_of_high h (by decide)⟩, byte_ne_of_high h (by decide)⟩

theorem isBareByte_high {b : UInt8} (h : 128 ≤ b.toNat) : isBareByte b = true := by
  rw [isBareByte, isAsciiWhitespace_high h]
  rfl

theorem isVerbByte_high {b : UInt8} (h : 128 ≤ b.toNat) : isVerbByte b = true := by
  rw [isVerbByte, isAsciiWhitespace_high h]
  simp only [Bool.not_false, Bool.true_and, bne_iff_ne]
  exact byte_ne_of_high h (by decide)

theorem isBare_eq (c : Char) : isBare c = !isWs c := by
  unfold isBare isWs onChar
  split
  · rfl
  · rfl

theorem isVerb_eq (c : Char) : isVerb c = (!isWs c && c != '"') := by
  unfold isVerb isWs onChar
  split
  · rename_i hc
    rw [isVerbByte]
    congr 1
    rw [Bool.eq_iff_iff, bne_iff_ne, bne_iff_ne]
    exact (ofNat_eq_iff hc (by decide : '"'.toNat < 128)).not
  · rename_i hc
    rw [Bool.not_false, Bool.true_and, eq_comm, bne_iff_ne]
    exact char_ne_of_high hc (by decide)

def quotedChars (c : Char) : List Char := (String.utf8EncodeChar c).map asChar

def escapedChars (c : Char) : List Char :=
  if c = 'n' then ['\n'] else if c = 't' then ['\t'] else if c = 'r' then ['\r'] else quotedChars c

def rawQuoted : List Char → Option (List Char × List Char)
  | [] => none
  | '"' :: text => some ([], text)
  | ['\\'] => none
  | '\\' :: c :: text => (rawQuoted text).map (fun x ↦ (escapedChars c ++ x.1, x.2))
  | c :: text => (rawQuoted text).map (fun x ↦ (quotedChars c ++ x.1, x.2))

theorem ne_backslash {c : Char} {text : List Char} (hend : c = '\\' → text = [] → False)
    (hescape : ∀ d rest, c = '\\' → text = d :: rest → False) : c ≠ '\\' := by
  intro hc
  cases text with
  | nil => exact hend hc rfl
  | cons d rest => exact hescape d rest hc rfl

theorem readQuoted_cons {line col : BitVec 32} {b : UInt8} (hquote : b ≠ 34) (hescape : b ≠ 92)
    (out : List Char) (rest : List UInt8) :
    readQuoted line col out (b :: rest) = readQuoted line col (out ++ [asChar b]) rest := by
  rw [readQuoted]
  · exact fun h ↦ hquote h
  · exact fun h _ ↦ hescape h
  · exact fun _ _ h _ ↦ hescape h

theorem readQuoted_high {line col : BitVec 32} {bytes : List UInt8}
    (h : ∀ b ∈ bytes, 128 ≤ b.toNat) (out : List Char) (rest : List UInt8) :
    readQuoted line col out (bytes ++ rest) =
      readQuoted line col (out ++ bytes.map asChar) rest := by
  induction bytes generalizing out with
  | nil => rw [List.nil_append, List.map_nil, List.append_nil]
  | cons b bytes ih =>
    obtain ⟨hb, hbytes⟩ := List.forall_mem_cons.mp h
    rw [List.cons_append, readQuoted_cons (byte_ne_of_high hb (by decide))
      (byte_ne_of_high hb (by decide)), ih hbytes, List.map_cons, List.append_assoc,
      List.singleton_append]

theorem readQuoted_char {line col : BitVec 32} {c : Char} (hquote : c ≠ '"') (hescape : c ≠ '\\')
    (out : List Char) (rest : List UInt8) :
    readQuoted line col out (String.utf8EncodeChar c ++ rest) =
      readQuoted line col (out ++ quotedChars c) rest := by
  unfold quotedChars
  by_cases hc : c.toNat < 128
  · have hne (d : Char) (hd : d.toNat < 128) (hcd : c ≠ d) :
        UInt8.ofNat c.toNat ≠ UInt8.ofNat d.toNat := (ofNat_eq_iff hc hd).not.mpr hcd
    rw [encodeChar_ascii hc, List.singleton_append,
      readQuoted_cons (hne '"' (by decide) hquote) (hne '\\' (by decide) hescape)]
    rfl
  · exact readQuoted_high (encodeChar_high (Nat.le_of_not_lt hc)).1 out rest

theorem readQuoted_escaped {line col : BitVec 32} (c : Char) (out : List Char)
    (rest : List UInt8) :
    readQuoted line col out (92 :: (String.utf8EncodeChar c ++ rest)) =
      readQuoted line col (out ++ escapedChars c) rest := by
  by_cases hc : c.toNat < 128
  · have hbyte (d : Char) (hd : d.toNat < 128) :
        UInt8.ofNat c.toNat = UInt8.ofNat d.toNat ↔ c = d := ofNat_eq_iff hc hd
    have hsame : [unescape (UInt8.ofNat c.toNat)] = escapedChars c := by
      unfold unescape escapedChars quotedChars
      rw [encodeChar_ascii hc, List.map_singleton]
      simp only [show (110 : UInt8) = UInt8.ofNat 'n'.toNat from rfl,
        show (116 : UInt8) = UInt8.ofNat 't'.toNat from rfl,
        show (114 : UInt8) = UInt8.ofNat 'r'.toNat from rfl, hbyte 'n' (by decide),
        hbyte 't' (by decide), hbyte 'r' (by decide)]
      split_ifs <;> rfl
    rw [encodeChar_ascii hc, List.singleton_append, readQuoted, hsame]
  · obtain ⟨hhigh, -⟩ := encodeChar_high (Nat.le_of_not_lt hc)
    have hplain : escapedChars c = quotedChars c := by
      rw [escapedChars, if_neg (char_ne_of_high hc (by decide)),
        if_neg (char_ne_of_high hc (by decide)), if_neg (char_ne_of_high hc (by decide))]
    obtain ⟨b, bytes, hb⟩ := List.exists_cons_of_ne_nil (@String.utf8EncodeChar_ne_nil c)
    rw [hplain, quotedChars]
    rw [hb] at hhigh ⊢
    obtain ⟨hfirst, hbytes⟩ := List.forall_mem_cons.mp hhigh
    have hcopy : unescape b = asChar b := by
      rw [unescape, if_neg (byte_ne_of_high hfirst (by decide)),
        if_neg (byte_ne_of_high hfirst (by decide)), if_neg (byte_ne_of_high hfirst (by decide))]
    rw [List.cons_append, readQuoted, hcopy, readQuoted_high hbytes, List.map_cons,
      List.append_assoc, List.singleton_append]

theorem readQuoted_encode (line col : BitVec 32) (out text : List Char) :
    (readQuoted line col out (encode text)).toOption =
      (rawQuoted text).map (fun x ↦ (out ++ x.1, encode x.2)) := by
  fun_induction rawQuoted text generalizing out with
  | case1 => rfl
  | case2 text =>
    rw [Option.map_some, List.append_nil]
    rfl
  | case3 => rfl
  | case4 c text ih =>
    have hbytes : encode ('\\' :: c :: text) =
        92 :: (String.utf8EncodeChar c ++ encode text) := rfl
    rw [hbytes, readQuoted_escaped, ih, Option.map_map]
    simp only [Function.comp_def, List.append_assoc]
  | case5 c text hquote hend hescape ih =>
    rw [encode_cons, readQuoted_char hquote (ne_backslash hend hescape), ih, Option.map_map]
    simp only [Function.comp_def, List.append_assoc]

end Characters

section Arguments

inductive Cut : List Char → List Value → Prop
  | done {text : List Char} (hend : text.dropWhile isWs = []) : Cut text []
  | quoted {text rest value tail : List Char} {args : List Value}
      (hquote : text.dropWhile isWs = '"' :: rest) (hvalue : rawQuoted rest = some (value, tail))
      (hargs : Cut tail args) : Cut text (.quoted (String.ofList value) :: args)
  | bare {text rest : List Char} {c : Char} {args : List Value}
      (hbare : text.dropWhile isWs = c :: rest) (hc : c ≠ '"')
      (hargs : Cut ((c :: rest).dropWhile isBare) args) :
      Cut text (.bare (String.ofList ((c :: rest).takeWhile isBare)) :: args)

theorem isBare_of_dropWhile {text rest : List Char} {c : Char}
    (h : text.dropWhile isWs = c :: rest) : isWs c = false ∧ isBare c = true := by
  have hws : isWs c = false := by
    have hhead := List.head?_dropWhile_not isWs text
    rw [h] at hhead
    simpa using hhead
  exact ⟨hws, by rw [isBare_eq, hws, Bool.not_false]⟩

theorem skipWs_encode (text : List Char) : skipWs (encode text) = encode (text.dropWhile isWs) :=
  dropWhile_encode (fun _ ↦ isAsciiWhitespace_high) text

theorem fromUtf8Lossy_encode (text : List Char) :
    fromUtf8Lossy (encode text) = String.ofList text := by
  rw [fromUtf8Lossy, ofUtf8_encode, Option.getD_some]

theorem encode_eq_nil {text : List Char} : encode text = [] ↔ text = [] := by
  rw [encode, List.flatMap_eq_nil_iff]
  constructor
  · intro h
    cases text with
    | nil => rfl
    | cons c text => exact absurd (h c List.mem_cons_self) String.utf8EncodeChar_ne_nil
  · intro h
    rw [h]
    exact List.forall_mem_nil _

theorem encode_eq_quote {text : List Char} {rest : List UInt8} (h : encode text = 34 :: rest) :
    ∃ tail, text = '"' :: tail ∧ rest = encode tail := by
  cases text with
  | nil => cases h
  | cons c text =>
    rw [encode_cons] at h
    by_cases hc : c.toNat < 128
    · rw [encodeChar_ascii hc, List.singleton_append, List.cons.injEq] at h
      have hquote : c = '"' := (ofNat_eq_iff hc (by decide : '"'.toNat < 128)).mp h.1
      exact ⟨text, by rw [hquote], h.2.symm⟩
    · obtain ⟨hhigh, -⟩ := encodeChar_high (Nat.le_of_not_lt hc)
      obtain ⟨b, bytes, hb⟩ := List.exists_cons_of_ne_nil (@String.utf8EncodeChar_ne_nil c)
      rw [hb, List.cons_append, List.cons.injEq] at h
      have hbyte := hhigh b (hb ▸ List.mem_cons_self)
      rw [h.1] at hbyte
      exact absurd hbyte (by decide)

variable {environment : String → Option String} {line : BitVec 32} {len : ℕ}

theorem expandToken_disabled (token : Token) :
    expandToken environment ⟨.disabled, false⟩ line token =
      .ok (match token with | .bare text => .bare text | .quoted text => .quoted text) := by
  cases token with
  | bare text => rw [expandToken, expandEnv, if_pos (.inl rfl)]; rfl
  | quoted text => rw [expandToken, expandEnv, if_pos (.inl rfl)]; rfl

theorem nextToken_nil {text : List Char} (h : text.dropWhile isWs = []) :
    nextToken line len (encode text) = .ok none := by
  rw [nextToken, skipWs_encode, h]
  rfl

theorem nextToken_quote {text rest : List Char} (h : text.dropWhile isWs = '"' :: rest) :
    (nextToken line len (encode text)).toOption =
      (rawQuoted rest).map (fun x ↦ some (.quoted (String.ofList x.1), encode x.2)) := by
  have hbytes : encode ('"' :: rest) = 34 :: encode rest := rfl
  rw [nextToken, skipWs_encode, h, hbytes]
  show (readQuoted line _ [] (encode rest) >>= fun x ↦
    pure (some (Token.quoted (String.ofList x.1), x.2))).toOption = _
  rw [toOption_bind, readQuoted_encode]
  cases rawQuoted rest with
  | none => rfl
  | some x => rfl

theorem nextToken_bare {text rest : List Char} {c : Char} (h : text.dropWhile isWs = c :: rest)
    (hc : c ≠ '"') :
    nextToken line len (encode text) =
      .ok (some (.bare (String.ofList ((c :: rest).takeWhile isBare)),
        encode ((c :: rest).dropWhile isBare))) := by
  rw [nextToken, skipWs_encode, h]
  split
  · rename_i hnil
    exact absurd (encode_eq_nil.mp hnil) (List.cons_ne_nil _ _)
  · rename_i tail hquote
    obtain ⟨tail', heq, -⟩ := encode_eq_quote hquote
    exact absurd (List.cons.inj heq).1 hc
  · rw [takeWhile_encode (fun _ ↦ isBareByte_high), dropWhile_encode (fun _ ↦ isBareByte_high),
      fromUtf8Lossy_encode]
    rfl

theorem nextToken_eq_none {text : List Char}
    (h : nextToken line len (encode text) = .ok none) : text.dropWhile isWs = [] := by
  cases htext : text.dropWhile isWs with
  | nil => rfl
  | cons c rest =>
    by_cases hc : c = '"'
    · subst hc
      have hnext := toOption_eq_some.mpr h
      rw [nextToken_quote htext, Option.map_eq_some_iff] at hnext
      obtain ⟨x, -, ⟨⟩⟩ := hnext
    · rw [nextToken_bare htext hc] at h
      cases h

theorem readArgs_eq_ok {opts : ParseOptions} {bytes : List UInt8} {args : List Value} :
    readArgs environment opts line len bytes = .ok args ↔
      (nextToken line len bytes = .ok none ∧ args = []) ∨
      ∃ token rest value values, nextToken line len bytes = .ok (some (token, rest)) ∧
        expandToken environment opts line token = .ok value ∧
        readArgs environment opts line len rest = .ok values ∧ args = value :: values := by
  rw [readArgs]
  split
  · rename_i e he
    rw [he]
    constructor
    · intro h
      cases h
    · intro h
      obtain ⟨⟨⟩, -⟩ | ⟨_, _, _, _, ⟨⟩, -⟩ := h
  · rename_i hnone
    rw [hnone]
    constructor
    · intro h
      cases h
      exact .inl ⟨rfl, rfl⟩
    · intro h
      obtain ⟨-, rfl⟩ | ⟨_, _, _, _, ⟨⟩, -⟩ := h
      rfl
  · rename_i token rest hsome
    rw [hsome, bind_eq_ok]
    constructor
    · intro h
      obtain ⟨value, hvalue, h⟩ := h
      obtain ⟨values, hvalues, h⟩ := bind_eq_ok.mp h
      cases h
      exact .inr ⟨token, rest, value, values, rfl, hvalue, hvalues, rfl⟩
    · intro h
      obtain ⟨⟨⟩, -⟩ | ⟨_, _, value, values, ⟨⟩, hvalue, hvalues, rfl⟩ := h
      exact ⟨value, hvalue, bind_eq_ok.mpr ⟨values, hvalues, rfl⟩⟩

theorem readArgs_encode {text : List Char} {args : List Value} :
    readArgs environment ⟨.disabled, false⟩ line len (encode text) = .ok args ↔ Cut text args := by
  constructor
  · intro h
    induction args generalizing text with
    | nil =>
      rcases readArgs_eq_ok.mp h with ⟨hnone, -⟩ | ⟨_, _, _, _, -, -, -, ⟨⟩⟩
      exact .done (nextToken_eq_none hnone)
    | cons arg args ih =>
      obtain ⟨-, ⟨⟩⟩ | ⟨token, rest, value, values, hsome, hvalue, hargs, ⟨⟩⟩ :=
        readArgs_eq_ok.mp h
      rw [expandToken_disabled] at hvalue
      cases htext : text.dropWhile isWs with
      | nil =>
        rw [nextToken_nil htext] at hsome
        cases hsome
      | cons c tail =>
        by_cases hc : c = '"'
        · subst hc
          have hnext := toOption_eq_some.mpr hsome
          rw [nextToken_quote htext, Option.map_eq_some_iff] at hnext
          obtain ⟨x, hx, heq⟩ := hnext
          cases heq
          cases hvalue
          exact .quoted htext hx (ih hargs)
        · rw [nextToken_bare htext hc] at hsome
          cases hsome
          cases hvalue
          exact .bare htext hc (ih hargs)
  · intro h
    induction h with
    | done hend => exact readArgs_eq_ok.mpr (.inl ⟨nextToken_nil hend, rfl⟩)
    | quoted hquote hvalue hargs ih =>
      have hnext := @nextToken_quote line len _ _ hquote
      rw [hvalue] at hnext
      exact readArgs_eq_ok.mpr (.inr ⟨_, _, _, _, toOption_eq_some.mp hnext,
        expandToken_disabled _, ih, rfl⟩)
    | bare hbare hc hargs ih =>
      exact readArgs_eq_ok.mpr (.inr ⟨_, _, _, _, nextToken_bare hbare hc,
        expandToken_disabled _, ih, rfl⟩)

end Arguments

end Aldivine.Config.Tokens
