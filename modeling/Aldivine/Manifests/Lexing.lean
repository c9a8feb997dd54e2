import Aldivine.Foundation.Utf8
import Aldivine.Manifests.Model

namespace Aldivine.Manifests.Lexing

open Foundation.Fallible Foundation.Text Foundation.Utf8 Model

/-- The bytes not yet read, and the line they begin on. -/
structure Lexer where
  rest : List UInt8
  line : ℕ
deriving DecidableEq

def bumpLine (line : ℕ) (b : UInt8) : ℕ := if b = 10 then line + 1 else line

section Comments

def skipLong (depth line : ℕ) : List UInt8 → Except ManifestError Lexer
  | 93 :: 93 :: rest => if depth = 1 then .ok ⟨rest, line⟩ else skipLong (depth - 1) line rest
  | 91 :: 91 :: rest => skipLong (depth + 1) line rest
  | b :: rest => skipLong depth (bumpLine line b) rest
  | [] => .error (.syntaxError line "unterminated long comment")

theorem skipLong_length {depth line : ℕ} {bytes : List UInt8} {lex : Lexer}
    (h : skipLong depth line bytes = .ok lex) : lex.rest.length ≤ bytes.length := by
  fun_induction skipLong depth line bytes with
  | case1 =>
    cases h
    exact Nat.le_add_right _ 2
  | case2 _ _ _ _ ih => exact (ih h).trans (Nat.le_add_right _ 2)
  | case3 _ _ _ ih => exact (ih h).trans (Nat.le_add_right _ 2)
  | case4 _ _ _ _ _ _ ih => exact (ih h).trans (Nat.le_add_right _ 1)
  | case5 => cases h

def isSpace (b : UInt8) : Bool := b == 32 || b == 9 || b == 13 || b == 10

def skipWsAndComments (lex : Lexer) : Except ManifestError Lexer :=
  match _hrest : lex.rest with
  | 45 :: 45 :: 91 :: 91 :: rest =>
    match _hlong : skipLong 1 lex.line rest with
    | .error e => .error e
    | .ok lex => skipWsAndComments lex
  | 45 :: 45 :: rest => skipWsAndComments ⟨rest.dropWhile (· ≠ 10), lex.line⟩
  | b :: rest => if isSpace b then skipWsAndComments ⟨rest, bumpLine lex.line b⟩ else .ok lex
  | [] => .ok lex
termination_by lex.rest.length
decreasing_by
  · rw [_hrest]
    exact (skipLong_length _hlong).trans_lt (Nat.lt_add_of_pos_right (Nat.succ_pos 3))
  · rw [_hrest]
    exact (List.dropWhile_sublist _).length_le.trans_lt (Nat.lt_add_of_pos_right Nat.two_pos)
  · rw [_hrest]
    exact Nat.lt_succ_self _

theorem skipWsAndComments_length {lex lex' : Lexer} (h : skipWsAndComments lex = .ok lex') :
    lex'.rest.length ≤ lex.rest.length := by
  fun_induction skipWsAndComments lex with
  | case1 => cases h
  | case2 lex rest hrest long hlong ih =>
    rw [hrest]
    exact (ih h).trans ((skipLong_length hlong).trans (Nat.le_add_right _ 4))
  | case3 lex rest _ hrest ih =>
    rw [hrest]
    exact (ih h).trans ((List.dropWhile_sublist _).length_le.trans (Nat.le_add_right _ 2))
  | case4 lex b rest _ _ hrest _ ih =>
    rw [hrest]
    exact (ih h).trans (Nat.le_add_right _ 1)
  | case5 =>
    cases h
    exact le_rfl
  | case6 =>
    cases h
    exact le_rfl

end Comments

section Words

def hexVal (b : UInt8) : Option ℕ :=
  if 48 ≤ b ∧ b ≤ 57 then some (b.toNat - 48)
  else if 97 ≤ b ∧ b ≤ 102 then some (b.toNat - 97 + 10)
  else if 65 ≤ b ∧ b ≤ 70 then some (b.toNat - 65 + 10)
  else none

def unescape (esc : UInt8) : Char :=
  match esc with
  | 110 => '\n'
  | 116 => '\t'
  | 114 => '\r'
  | 92 => '\\'
  | 39 => '\''
  | 34 => '"'
  | 97 => '\x07'
  | 98 => '\x08'
  | 102 => '\x0C'
  | 118 => '\x0B'
  | 10 => '\n'
  | other => asChar other

def readEscape (line : ℕ) : List UInt8 → Option (Char × Lexer)
  | [] => none
  | 120 :: rest =>
    let high := (hexVal (rest.head?.getD 48)).getD 0
    let low := (hexVal ((rest.drop 1).head?.getD 48)).getD 0
    some (Char.ofNat (high * 16 + low), ⟨rest.drop 2, (rest.take 2).foldl bumpLine line⟩)
  | esc :: rest => some (unescape esc, ⟨rest, bumpLine line esc⟩)

theorem readEscape_length {line : ℕ} {bytes : List UInt8} {c : Char} {lex : Lexer}
    (h : readEscape line bytes = some (c, lex)) : lex.rest.length < bytes.length := by
  unfold readEscape at h
  split at h
  · cases h
  · cases h
    exact Nat.lt_succ_of_le (List.drop_sublist _ _).length_le
  · cases h
    exact Nat.lt_succ_self _

/-- `read_string`, behind the opening quote on line `start`. -/
def readString (quote : UInt8) (start : ℕ) (out : List Char) (lex : Lexer) :
    Except ManifestError (List Char × Lexer) :=
  match _hrest : lex.rest with
  | [] => .error (.syntaxError start "unterminated string")
  | b :: rest =>
    if b = quote then .ok (out, ⟨rest, lex.line⟩)
    else if b = 92 then
      match _hescape : readEscape lex.line rest with
      | none => .error (.syntaxError start "unterminated escape")
      | some (c, lex) => readString quote start (out ++ [c]) lex
    else if b = 10 then .error (.syntaxError start "newline in string")
    else readString quote start (out ++ [asChar b]) ⟨rest, lex.line⟩
termination_by lex.rest.length
decreasing_by
  · rw [_hrest]
    exact (readEscape_length _hescape).trans (Nat.lt_succ_self _)
  · rw [_hrest]
    exact Nat.lt_succ_self _

theorem readString_length {quote : UInt8} {start : ℕ} {out text : List Char} {lex lex' : Lexer}
    (h : readString quote start out lex = .ok (text, lex')) :
    lex'.rest.length < lex.rest.length := by
  fun_induction readString quote start out lex with
  | case1 => cases h
  | case2 out lex rest hrest =>
    cases h
    rw [hrest]
    exact Nat.lt_succ_self _
  | case3 => cases h
  | case4 out lex rest c lex' hescape hrest _ ih =>
    rw [hrest]
    exact (ih h).trans ((readEscape_length hescape).trans (Nat.lt_succ_self _))
  | case5 => cases h
  | case6 out lex b rest hrest _ _ _ ih =>
    rw [hrest]
    exact (ih h).trans (Nat.lt_succ_self _)

def readLong (start : ℕ) : List Char → ℕ → List UInt8 → Except ManifestError (List Char × Lexer)
  | out, line, 93 :: 93 :: rest => .ok (out, ⟨rest, line⟩)
  | out, line, b :: rest => readLong start (out ++ [asChar b]) (bumpLine line b) rest
  | _, _, [] => .error (.syntaxError start "unterminated long string")

theorem readLong_length {start line : ℕ} {out text : List Char} {bytes : List UInt8} {lex : Lexer}
    (h : readLong start out line bytes = .ok (text, lex)) : lex.rest.length < bytes.length := by
  fun_induction readLong start out line bytes with
  | case1 =>
    cases h
    exact Nat.lt_add_of_pos_right Nat.two_pos
  | case2 _ _ _ _ _ ih => exact (ih h).trans (Nat.lt_succ_self _)
  | case3 => cases h

def isDigit (b : UInt8) : Bool := 48 ≤ b && b ≤ 57

def isNumber (b : UInt8) : Bool := isDigit b || b ∈ [46, 101, 69, 43, 45, 120, 88]

def isIdent (b : UInt8) : Bool :=
  isDigit b || (97 ≤ b && b ≤ 122) || (65 ≤ b && b ≤ 90) || b == 95 || b == 46

def hexDigit (n : ℕ) : Char := if n < 10 then Char.ofNat (48 + n) else Char.ofNat (87 + n)

/-- The keyword literals are passed on as texts. -/
def keyword {F : Type} (id : String) : Tok F :=
  match id with
  | "true" => .str "__bool_true__"
  | "false" => .str "__bool_false__"
  | "nil" => .str "__nil__"
  | id => .ident id

end Words

section Next

variable {F : Type} (host : Host F)

def readNumber (lex : Lexer) : F × Lexer :=
  let text := (ofUtf8 (lex.rest.takeWhile isNumber)).getD "0"
  ((host.parseF64 text).getD host.zero, ⟨lex.rest.dropWhile isNumber, lex.line⟩)

/-- `read_ident`. The bytes are ASCII, so that nothing is lost. -/
def readIdent (lex : Lexer) : String × Lexer :=
  ((ofUtf8 (lex.rest.takeWhile isIdent)).getD "\uFFFD", ⟨lex.rest.dropWhile isIdent, lex.line⟩)

/-- What `next` makes of the bytes where white space and comments end. -/
def scan (lex : Lexer) : Except ManifestError (Option (Tok F) × Lexer) :=
  match lex.rest with
  | [] => .ok (none, lex)
  | 123 :: rest => .ok (some .lBrace, ⟨rest, lex.line⟩)
  | 125 :: rest => .ok (some .rBrace, ⟨rest, lex.line⟩)
  | 61 :: rest => .ok (some .assign, ⟨rest, lex.line⟩)
  | 44 :: rest => .ok (some .comma, ⟨rest, lex.line⟩)
  | 39 :: rest => do
    let (text, lex) ← readString 39 lex.line [] ⟨rest, lex.line⟩
    return (some (.str (String.ofList text)), lex)
  | 34 :: rest => do
    let (text, lex) ← readString 34 lex.line [] ⟨rest, lex.line⟩
    return (some (.str (String.ofList text)), lex)
  | 91 :: 91 :: rest => do
    let (text, lex) ← readLong lex.line [] lex.line rest
    return (some (.str (String.ofList text)), lex)
  | b :: _ =>
    if isDigit b then
      let (n, lex) := readNumber host lex
      .ok (some (.num n), lex)
    else if b = 116 ∨ b = 102 ∨ b = 110 then
      let (id, lex) := readIdent lex
      .ok (some (keyword id), lex)
    else
      let (id, lex) := readIdent lex
      if id = "" then
        .error (.syntaxError lex.line ("unexpected byte 0x" ++
          String.ofList [hexDigit (b.toNat / 16), hexDigit (b.toNat % 16)]))
      else .ok (some (.ident id), lex)

def next (lex : Lexer) : Except ManifestError (Option (Tok F) × Lexer) := do
  scan host (← skipWsAndComments lex)

variable {host}

theorem dropWhile_length_lt {p : UInt8 → Bool} {b : UInt8} {rest : List UInt8} (h : p b = true) :
    ((b :: rest).dropWhile p).length < (b :: rest).length := by
  rw [List.dropWhile_cons_of_pos h]
  exact Nat.lt_succ_of_le (List.dropWhile_sublist _).length_le

theorem scan_length {lex lex' : Lexer} {tok : Tok F} (h : scan host lex = .ok (some tok, lex')) :
    lex'.rest.length < lex.rest.length := by
  unfold scan at h
  split at h
  · cases h
  iterate 4
    rename_i hrest
    cases h
    rw [hrest]
    exact Nat.lt_succ_self _
  iterate 2
    rename_i hrest
    obtain ⟨⟨text, lex''⟩, htext, heq⟩ := bind_eq_ok.mp h
    cases heq
    rw [hrest]
    exact (readString_length htext).trans (Nat.lt_succ_self _)
  · rename_i hrest
    obtain ⟨⟨text, lex''⟩, htext, heq⟩ := bind_eq_ok.mp h
    cases heq
    rw [hrest]
    exact (readLong_length htext).trans (Nat.lt_add_of_pos_right Nat.two_pos)
  rename_i b rest _ _ _ _ _ _ _ hrest
  have hident (hb : isIdent b = true) :
      (lex.rest.dropWhile isIdent).length < lex.rest.length := by
    rw [hrest]
    exact dropWhile_length_lt hb
  split at h
  · rename_i hdigit
    cases h
    have hnumber : isNumber b = true := by rw [isNumber, hdigit, Bool.true_or]
    dsimp only
    rw [hrest]
    exact dropWhile_length_lt hnumber
  split at h
  · rename_i hletter
    cases h
    apply hident
    rcases hletter with rfl | rfl | rfl
    all_goals decide
  dsimp only at h
  split at h
  · cases h
  · rename_i hne
    cases h
    apply hident
    by_contra hb
    refine hne ?_
    simp only [readIdent]
    rw [hrest, List.takeWhile_cons_of_neg hb]
    rfl

theorem next_length {lex lex' : Lexer} {tok : Tok F} (h : next host lex = .ok (some tok, lex')) :
    lex'.rest.length < lex.rest.length := by
  obtain ⟨lex'', hskip, hscan⟩ := bind_eq_ok.mp h
  exact (scan_length hscan).trans_le (skipWsAndComments_length hskip)

theorem scan_none {lex lex' : Lexer} (h : scan host lex = .ok (none, lex')) : lex' = lex := by
  unfold scan at h
  split at h
  · cases h
    rfl
  iterate 4 cases h
  iterate 3
    obtain ⟨x, -, heq⟩ := bind_eq_ok.mp h
    cases heq
  split at h
  · cases h
  split at h
  · cases h
  dsimp only at h
  split at h
  · cases h
  · cases h

theorem next_none_length {lex lex' : Lexer} (h : next host lex = .ok (none, lex')) :
    lex'.rest.length ≤ lex.rest.length := by
  obtain ⟨lex'', hskip, hscan⟩ := bind_eq_ok.mp h
  rw [scan_none hscan]
  exact skipWsAndComments_length hskip

end Next

end Aldivine.Manifests.Lexing
