import Mathlib.Data.List.Forall2

namespace Aldivine.Databases.Dialects

inductive Backend
  | postgres
  | mysql
  | mariadb
  | sqlite
deriving DecidableEq

def Backend.isMysqlFamily : Backend → Bool
  | .mysql | .mariadb => true
  | .postgres | .sqlite => false

inductive PlaceholderStyle
  | numbered
  | question
deriving DecidableEq

def commaSep (texts : List (List Char)) : List Char := [',', ' '].intercalate texts

namespace PlaceholderStyle

def tuple (style : PlaceholderStyle) (cols : ℕ) : List Char :=
  commaSep (List.replicate cols (match style with
    | .numbered => ['$', '1']
    | .question => ['?']))

def numberedFrom (start n : ℕ) : List Char :=
  commaSep ((List.range' start n).map (fun i ↦ '$' :: Nat.toDigits 10 i))

end PlaceholderStyle

structure Dialect where
  backend : Backend
  placeholder : PlaceholderStyle
  identQuote : Char

namespace Dialect

def forBackend : Backend → Dialect
  | .postgres => ⟨.postgres, .numbered, '"'⟩
  | .mysql => ⟨.mysql, .question, '\x60'⟩
  | .mariadb => ⟨.mariadb, .question, '\x60'⟩
  | .sqlite => ⟨.sqlite, .question, '"'⟩

/-- `name.replace(q, "qq")`. -/
def escape (q : Char) (name : List Char) : List Char :=
  name.flatMap (fun c ↦ if c = q then [q, q] else [c])

def ident (d : Dialect) (name : List Char) : List Char :=
  d.identQuote :: (escape d.identQuote name ++ [d.identQuote])

def assignment (d : Dialect) (col : List Char) (i : ℕ) : List Char :=
  d.ident col ++ " = ".toList ++ match d.placeholder with
    | .numbered => '$' :: Nat.toDigits 10 (i + 1)
    | .question => ['?']

def upsert (d : Dialect) (table : List Char) (cols : List (List Char)) (conflictCol : List Char) :
    List Char :=
  let idents := cols.map d.ident
  let placeholders := match d.placeholder with
    | .numbered => PlaceholderStyle.numberedFrom 1 cols.length
    | .question => d.placeholder.tuple cols.length
  let assignments := commaSep (cols.zipIdx.map (fun p ↦ d.assignment p.1 p.2))
  if d.backend.isMysqlFamily then
    "INSERT INTO ".toList ++ d.ident table ++ " (".toList ++ commaSep idents ++
      ") VALUES (".toList ++ placeholders ++ ") ON DUPLICATE KEY UPDATE ".toList ++ assignments
  else
    "INSERT INTO ".toList ++ d.ident table ++ " (".toList ++ commaSep idents ++
      ") VALUES (".toList ++ placeholders ++ ") ON CONFLICT (".toList ++ d.ident conflictCol ++
      ") DO UPDATE SET ".toList ++ assignments

end Dialect

section Lexing

/-- What a statement is read as: `name` is a quoted identifier with its quotes undone, `next` is
`?` and `slot n` is `$n`. -/
inductive Token
  | name (text : List Char)
  | word (letters : List Char)
  | mark (c : Char)
  | next
  | slot (n : ℕ)
deriving DecidableEq

inductive Mode
  | between
  | word (letters : List Char)
  | number (digits : List Char)
  | quoted (text : List Char)
  | closing (text : List Char)

def separators : List Char := [' ', ',', '(', ')', '=']

/-- A character that no token before it takes. -/
def enter (q : Char) (tokens : List Token) (c : Char) : Option (List Token × Mode) :=
  if c = q then some (tokens, .quoted [])
  else if c = ' ' then some (tokens, .between)
  else if c ∈ separators then some (tokens ++ [.mark c], .between)
  else if c = '?' then some (tokens ++ [.next], .between)
  else if c = '$' then some (tokens, .number [])
  else if c.isAlpha then some (tokens, .word [c])
  else none

/-- A quote inside a quoted identifier closes it, unless another one follows. -/
def readChar (q : Char) : List Token × Mode → Char → Option (List Token × Mode)
  | (tokens, .between), c => enter q tokens c
  | (tokens, .word letters), c =>
    if c.isAlpha then some (tokens, .word (letters ++ [c]))
    else enter q (tokens ++ [.word letters]) c
  | (tokens, .number digits), c =>
    if c.isDigit then some (tokens, .number (digits ++ [c]))
    else if digits = [] then none
    else enter q (tokens ++ [.slot (Nat.ofDigitChars 10 digits 0)]) c
  | (tokens, .quoted text), c =>
    if c = q then some (tokens, .closing text) else some (tokens, .quoted (text ++ [c]))
  | (tokens, .closing text), c =>
    if c = q then some (tokens, .quoted (text ++ [q])) else enter q (tokens ++ [.name text]) c

/-- The end of the text ends a token as a blank does. -/
def lex (q : Char) (text : List Char) : Option (List Token) :=
  match (text ++ [' ']).foldlM (readChar q) ([], .between) with
  | some (tokens, .between) => some tokens
  | _ => none

end Lexing

section Statements

def Backend.quote : Backend → Char
  | .postgres | .sqlite => '"'
  | .mysql | .mariadb => '\x60'

def keywords (words : List String) : List Token := words.map (fun w ↦ .word w.toList)

def commas (items : List (List Token)) : List Token := [.mark ','].intercalate items

def assign (col : List Char) (value : Token) : List Token := [.name col, .mark '=', value]

def opening (table : List Char) (cols : List (List Char)) (values : List Token) : List Token :=
  keywords ["INSERT", "INTO"] ++ Token.name table :: Token.mark '(' ::
    (commas (cols.map (fun c ↦ [Token.name c])) ++ Token.mark ')' ::
      (keywords ["VALUES"] ++ Token.mark '(' :: commas (values.map (fun v ↦ [v]))))

/-- What is said of a conflict: MySQL finds the column itself. -/
def conflictClause (b : Backend) (conflictCol : List Char) : List Token :=
  if b.isMysqlFamily then keywords ["ON", "DUPLICATE", "KEY", "UPDATE"]
  else keywords ["ON", "CONFLICT"] ++ Token.mark '(' :: Token.name conflictCol :: Token.mark ')' ::
    keywords ["DO", "UPDATE", "SET"]

def statement (b : Backend) (table : List Char) (cols : List (List Char)) (conflictCol : List Char)
    (values updates : List Token) : List Token :=
  opening table cols values ++ Token.mark ')' ::
    (conflictClause b conflictCol ++ commas (List.zipWith assign cols updates))

/-- Each `?` takes the bind value after the one before it, from the `k`-th on. -/
def resolve : ℕ → List Token → List Token
  | _, [] => []
  | k, .next :: rest => .slot k :: resolve (k + 1) rest
  | k, t :: rest => t :: resolve k rest

def used (tokens : List Token) : List ℕ :=
  tokens.filterMap (fun t ↦ match t with
    | .slot n => some n
    | _ => none)

def consumed (tokens : List Token) : ℕ := (used (resolve 1 tokens)).foldr max 0

def slots (n : ℕ) : List Token := (List.range' 1 n).map .slot

/-- The statement is an upsert of just these names, which reads one bind value for each column, and
the `i`-th one at both places of column `i`. -/
def Faithful (b : Backend) (table : List Char) (cols : List (List Char)) (conflictCol : List Char) :
    Prop :=
  ∃ tokens, lex b.quote ((Dialect.forBackend b).upsert table cols conflictCol) = some tokens ∧
    consumed tokens = cols.length ∧
    resolve 1 tokens =
      statement b table cols conflictCol (slots cols.length) (slots cols.length)

end Statements

section Reading

variable {q c : Char} {text text' : List Char} {toks toks' : List Token}

def Quote (q : Char) : Prop := q ∉ separators ∧ q ≠ '?' ∧ q ≠ '$' ∧ q.isAlpha = false

theorem quote_backend (b : Backend) : Quote b.quote := by
  cases b <;> refine ⟨?_, ?_, ?_, ?_⟩ <;> decide

def separated (c : Char) : List Token := if c = ' ' then [] else [.mark c]

/-- The text is read as these tokens, whatever was read before and whichever separator follows. -/
def Reads (q : Char) (text : List Char) (toks : List Token) : Prop :=
  ∀ tokens, ∀ c ∈ separators,
    (text ++ [c]).foldlM (readChar q) (tokens, .between) = enter q (tokens ++ toks) c

theorem enter_separator (hq : Quote q) (hc : c ∈ separators) (tokens : List Token) :
    enter q tokens c = some (tokens ++ separated c, .between) := by
  have hne : c ≠ q := ne_of_mem_of_not_mem hc hq.1
  rw [enter, if_neg hne, separated]
  by_cases hblank : c = ' '
  · rw [if_pos hblank, if_pos hblank, List.append_nil]
  · rw [if_neg hblank, if_neg hblank, if_pos hc]

theorem separator_not_alpha (hc : c ∈ separators) : c.isAlpha = false ∧ c.isDigit = false := by
  have hall : separators.all (fun c ↦ !c.isAlpha && !c.isDigit) = true := by decide
  simpa using List.all_eq_true.mp hall c hc

theorem foldlM_append (start : List Token × Mode) (first rest : List Char) :
    (first ++ rest).foldlM (readChar q) start =
      (first.foldlM (readChar q) start).bind (fun s ↦ rest.foldlM (readChar q) s) :=
  List.foldlM_append

theorem foldlM_single (start : List Token × Mode) :
    [c].foldlM (readChar q) start = readChar q start c := by
  rw [List.foldlM_cons]
  exact bind_pure _

theorem reads_nil (q : Char) : Reads q [] [] := by
  intro tokens c _
  rw [List.nil_append, foldlM_single, List.append_nil]
  rfl

theorem reads_append (hq : Quote q) (hc : c ∈ separators) (h : Reads q text toks)
    (h' : Reads q text' toks') :
    Reads q (text ++ c :: text') (toks ++ (separated c ++ toks')) := by
  intro tokens c' hc'
  have hsplit : text ++ c :: text' ++ [c'] = (text ++ [c]) ++ (text' ++ [c']) := by simp
  rw [hsplit, foldlM_append, h tokens c hc, enter_separator hq hc, Option.bind_some,
    h' _ c' hc', List.append_assoc, List.append_assoc]

theorem foldlM_word (tokens : List Token) (letters word : List Char)
    (hword : ∀ c ∈ word, c.isAlpha = true) :
    word.foldlM (readChar q) (tokens, .word letters) = some (tokens, .word (letters ++ word)) := by
  induction word generalizing letters with
  | nil => rw [List.append_nil]; rfl
  | cons c word ih =>
    have hread : readChar q (tokens, .word letters) c = some (tokens, .word (letters ++ [c])) :=
      if_pos (hword c List.mem_cons_self)
    rw [List.foldlM_cons, hread]
    refine (ih (letters ++ [c]) (fun c hc ↦ hword c (List.mem_cons_of_mem _ hc))).trans ?_
    rw [List.append_assoc, List.singleton_append]

theorem reads_word (hq : Quote q) {word : List Char} (hne : word ≠ [])
    (hword : ∀ c ∈ word, c.isAlpha = true) : Reads q word [.word word] := by
  intro tokens c hc
  obtain ⟨first, rest, rfl⟩ := List.exists_cons_of_ne_nil hne
  have hfirst := hword first List.mem_cons_self
  have henter : enter q tokens first = some (tokens, .word [first]) := by
    have hnq : first ≠ q := by
      rintro rfl
      rw [hq.2.2.2] at hfirst
      exact Bool.false_ne_true hfirst
    have hnsep : first ∉ separators := by
      intro hsep
      rw [(separator_not_alpha hsep).1] at hfirst
      exact Bool.false_ne_true hfirst
    have hblank : first ≠ ' ' := by
      rintro rfl
      exact hnsep (by decide)
    have hnext : first ≠ '?' := by
      rintro rfl
      exact absurd hfirst (by decide)
    have hslot : first ≠ '$' := by
      rintro rfl
      exact absurd hfirst (by decide)
    rw [enter, if_neg hnq, if_neg hblank, if_neg hnsep, if_neg hnext, if_neg hslot, if_pos hfirst]
  have hread : readChar q (tokens, .between) first = some (tokens, .word [first]) := henter
  rw [List.cons_append, List.foldlM_cons, hread]
  refine (foldlM_append _ _ _).trans ?_
  rw [foldlM_word _ _ _ (fun c hc ↦ hword c (List.mem_cons_of_mem _ hc)), Option.bind_some,
    foldlM_single]
  refine if_neg ?_
  rw [(separator_not_alpha hc).1]
  exact Bool.false_ne_true

theorem foldlM_digits (tokens : List Token) (first digits : List Char)
    (hdigits : ∀ c ∈ digits, c.isDigit = true) :
    digits.foldlM (readChar q) (tokens, .number first) =
      some (tokens, .number (first ++ digits)) := by
  induction digits generalizing first with
  | nil => rw [List.append_nil]; rfl
  | cons c digits ih =>
    have hread : readChar q (tokens, .number first) c = some (tokens, .number (first ++ [c])) :=
      if_pos (hdigits c List.mem_cons_self)
    rw [List.foldlM_cons, hread]
    refine (ih (first ++ [c]) (fun c hc ↦ hdigits c (List.mem_cons_of_mem _ hc))).trans ?_
    rw [List.append_assoc, List.singleton_append]

theorem reads_slot (hq : Quote q) (n : ℕ) :
    Reads q ('$' :: Nat.toDigits 10 n) [.slot n] := by
  intro tokens c hc
  have hread : readChar q (tokens, .between) '$' = some (tokens, .number []) := by
    have hne : '$' ≠ q := hq.2.2.1.symm
    have henter : enter q tokens '$' = some (tokens, .number []) := by
      rw [enter, if_neg hne]
      rfl
    exact henter
  rw [List.cons_append, List.foldlM_cons, hread]
  refine (foldlM_append _ _ _).trans ?_
  rw [foldlM_digits _ _ _ (fun c hc ↦ Nat.isDigit_of_mem_toDigits (by decide) (by decide) hc),
    Option.bind_some, foldlM_single, List.nil_append, readChar,
    if_neg (by rw [(separator_not_alpha hc).2]; exact Bool.false_ne_true),
    if_neg Nat.toDigits_ne_nil, Nat.ofDigitChars_ten_toDigits]

theorem reads_next (hq : Quote q) : Reads q ['?'] [.next] := by
  intro tokens c _
  have hread : readChar q (tokens, .between) '?' = some (tokens ++ [.next], .between) := by
    have hne : '?' ≠ q := hq.2.1.symm
    have henter : enter q tokens '?' = some (tokens ++ [.next], .between) := by
      rw [enter, if_neg hne]
      rfl
    exact henter
  rw [List.singleton_append, List.foldlM_cons, hread]
  exact foldlM_single _

theorem foldlM_escape (q : Char) (tokens : List Token) (text name : List Char) :
    (Dialect.escape q name).foldlM (readChar q) (tokens, .quoted text) =
      some (tokens, .quoted (text ++ name)) := by
  induction name generalizing text with
  | nil => rw [List.append_nil]; rfl
  | cons c name ih =>
    have hcons : Dialect.escape q (c :: name) =
        (if c = q then [q, q] else [c]) ++ Dialect.escape q name := List.flatMap_cons
    have hread : (if c = q then [q, q] else [c]).foldlM (readChar q) (tokens, .quoted text) =
        some (tokens, .quoted (text ++ [c])) := by
      by_cases heq : c = q
      · rw [if_pos heq, heq]
        simp [List.foldlM_cons, readChar]
      · rw [if_neg heq, foldlM_single]
        exact if_neg heq
    rw [hcons, foldlM_append, hread, Option.bind_some, ih, List.append_assoc,
      List.singleton_append]

theorem reads_ident (hq : Quote q) {d : Dialect} (hd : d.identQuote = q) (name : List Char) :
    Reads q (d.ident name) [.name name] := by
  intro tokens c hc
  have hopen : readChar q (tokens, .between) q = some (tokens, .quoted []) := if_pos rfl
  have hclose : readChar q (tokens, .quoted name) q = some (tokens, .closing name) := if_pos rfl
  have hafter : readChar q (tokens, .closing name) c = enter q (tokens ++ [.name name]) c :=
    if_neg (ne_of_mem_of_not_mem hc hq.1)
  rw [Dialect.ident, hd, List.cons_append, List.foldlM_cons, hopen]
  refine (foldlM_append _ _ _).trans ?_
  rw [foldlM_append, foldlM_escape, Option.bind_some, List.nil_append, foldlM_single, hclose,
    Option.bind_some, foldlM_single, hafter]

theorem reads_commas (hq : Quote q) {texts : List (List Char)} {items : List (List Token)}
    (h : List.Forall₂ (Reads q) texts items) : Reads q (commaSep texts) (commas items) := by
  induction h with
  | nil => exact reads_nil q
  | @cons text toks texts items hhead htail ih =>
    cases htail with
    | nil =>
      rw [commaSep, commas, List.intercalate_singleton, List.intercalate_singleton]
      exact hhead
    | cons hnext hrest =>
      have hblank := reads_append hq (c := ' ') (by decide) (reads_nil q) ih
      have hcomma := reads_append hq (c := ',') (by decide) hhead hblank
      rw [commaSep, commas, List.intercalate_cons_cons, List.intercalate_cons_cons,
        List.append_assoc, List.append_assoc]
      exact hcomma

theorem lex_of_reads (hq : Quote q) (h : Reads q text toks) : lex q text = some toks := by
  have hblank : ' ' ∈ separators := by decide
  rw [lex, h [] ' ' hblank, enter_separator hq hblank]
  exact congrArg some (List.append_nil toks)

def phrase (words : List String) : List Char := [' '].intercalate (words.map String.toList)

theorem reads_phrase (hq : Quote q) (words : List String)
    (hwords : words.all (fun w ↦ !w.toList.isEmpty && w.toList.all Char.isAlpha) = true) :
    Reads q (phrase words) (keywords words) := by
  induction words with
  | nil => exact reads_nil q
  | cons w words ih =>
    rw [List.all_cons, Bool.and_eq_true, Bool.and_eq_true] at hwords
    obtain ⟨⟨hne, halpha⟩, hrest⟩ := hwords
    have hword : Reads q w.toList [.word w.toList] :=
      reads_word hq (by simpa using hne) (List.all_eq_true.mp halpha)
    cases words with
    | nil =>
      rw [phrase, List.map_singleton, List.intercalate_singleton]
      exact hword
    | cons next words =>
      have hblank := reads_append hq (c := ' ') (by decide) hword (ih hrest)
      rw [phrase, List.map_cons, List.map_cons, List.intercalate_cons_cons, List.append_assoc]
      exact hblank

end Reading

section Shape

variable {q : Char} {d : Dialect}

def placeholder (style : PlaceholderStyle) (i : ℕ) : Token :=
  match style with
  | .numbered => .slot (i + 1)
  | .question => .next

def placeholders (style : PlaceholderStyle) (start n : ℕ) : List Token :=
  (List.range' start n).map (placeholder style)

theorem reads_assignment (hq : Quote q) (hd : d.identQuote = q) (col : List Char) (i : ℕ) :
    Reads q (d.assignment col i) (assign col (placeholder d.placeholder i)) := by
  have hequals : " = ".toList = [' ', '=', ' '] := by decide
  have hvalue : Reads q (match d.placeholder with
      | .numbered => '$' :: Nat.toDigits 10 (i + 1)
      | .question => ['?']) [placeholder d.placeholder i] := by
    cases d.placeholder with
    | numbered => exact reads_slot hq (i + 1)
    | question => exact reads_next hq
  have hblank := reads_append hq (c := ' ') (by decide) (reads_nil q) hvalue
  have hmark := reads_append hq (c := '=') (by decide) (reads_nil q) hblank
  have hname := reads_append hq (c := ' ') (by decide) (reads_ident hq hd col) hmark
  rw [Dialect.assignment, hequals, List.append_assoc]
  exact hname

theorem reads_assignments (hq : Quote q) (hd : d.identQuote = q) (cols : List (List Char))
    (start : ℕ) :
    List.Forall₂ (Reads q) ((cols.zipIdx start).map (fun p ↦ d.assignment p.1 p.2))
      (List.zipWith assign cols (placeholders d.placeholder start cols.length)) := by
  induction cols generalizing start with
  | nil => exact .nil
  | cons col cols ih => exact .cons (reads_assignment hq hd col start) (ih (start + 1))

theorem placeholders_question (start n : ℕ) :
    placeholders .question start n = List.replicate n .next := by
  have hmap : placeholders .question start n =
      (List.range' start n).map (fun _ ↦ Token.next) := rfl
  rw [hmap, List.map_const', List.length_range']

theorem placeholders_numbered (n : ℕ) : placeholders .numbered 0 n = slots n := by
  rw [placeholders, slots, List.range'_eq_map_range, List.range'_eq_map_range, List.map_map,
    List.map_map]
  refine List.map_congr_left (fun i _ ↦ ?_)
  rw [Function.comp_apply, Function.comp_apply, Nat.zero_add, Nat.add_comm 1 i]
  rfl

theorem reads_values (hq : Quote q) (style : PlaceholderStyle) (n : ℕ) :
    Reads q (match style with
      | .numbered => PlaceholderStyle.numberedFrom 1 n
      | .question => style.tuple n) (commas ((placeholders style 0 n).map (fun v ↦ [v]))) := by
  cases style with
  | numbered =>
    rw [placeholders_numbered]
    refine reads_commas hq ?_
    simp only [slots, List.map_map, List.forall₂_map_left_iff, List.forall₂_map_right_iff,
      List.forall₂_same]
    exact fun i _ ↦ reads_slot hq i
  | question =>
    rw [placeholders_question, List.map_replicate]
    refine reads_commas hq ?_
    exact List.forall₂_iff_get.mpr ⟨by simp, fun i _ _ ↦ by simpa using reads_next hq⟩

theorem reads_opening (hq : Quote q) (hd : d.identQuote = q) (table : List Char)
    (cols : List (List Char)) {text : List Char} {values : List Token}
    (hvalues : Reads q text (commas (values.map (fun v ↦ [v])))) :
    Reads q ("INSERT INTO ".toList ++ d.ident table ++ " (".toList ++ commaSep (cols.map d.ident) ++
        ") VALUES (".toList ++ text)
      (opening table cols values) := by
  have hinsert : "INSERT INTO ".toList = phrase ["INSERT", "INTO"] ++ [' '] := by decide
  have hopen : " (".toList = [' ', '('] := by decide
  have hmiddle : ") VALUES (".toList = ')' :: ' ' :: (phrase ["VALUES"] ++ [' ', '(']) := by decide
  have hcols : Reads q (commaSep (cols.map d.ident))
      (commas (cols.map (fun c ↦ [Token.name c]))) := by
    refine reads_commas hq ?_
    simp only [List.forall₂_map_left_iff, List.forall₂_map_right_iff, List.forall₂_same]
    exact fun c _ ↦ reads_ident hq hd c
  have hplaces := reads_append hq (c := '(') (by decide) (reads_nil q) hvalues
  have hkeyword := reads_append hq (c := ' ') (by decide)
    (reads_phrase hq ["VALUES"] (by decide)) hplaces
  have hblank := reads_append hq (c := ' ') (by decide) (reads_nil q) hkeyword
  have hlist := reads_append hq (c := ')') (by decide) hcols hblank
  have hparen := reads_append hq (c := '(') (by decide) (reads_nil q) hlist
  have hname := reads_append hq (c := ' ') (by decide) (reads_ident hq hd table) hparen
  have hall := reads_append hq (c := ' ') (by decide)
    (reads_phrase hq ["INSERT", "INTO"] (by decide)) hname
  rw [hinsert, hopen, hmiddle, opening]
  simpa [separated] using hall

/-- Whatever the names hold, the text is read as the upsert of just these names. -/
theorem lex_upsert (b : Backend) (table : List Char) (cols : List (List Char))
    (conflictCol : List Char) :
    lex b.quote ((Dialect.forBackend b).upsert table cols conflictCol) =
      some (statement b table cols conflictCol
        (placeholders (Dialect.forBackend b).placeholder 0 cols.length)
        (placeholders (Dialect.forBackend b).placeholder 0 cols.length)) := by
  have hq := quote_backend b
  have hd : (Dialect.forBackend b).identQuote = b.quote := by cases b <;> rfl
  have hb : (Dialect.forBackend b).backend = b := by cases b <;> rfl
  have hopening := reads_opening hq hd table cols
    (reads_values hq (Dialect.forBackend b).placeholder cols.length)
  have hassignments := reads_commas hq (reads_assignments hq hd cols 0)
  have hduplicate : ") ON DUPLICATE KEY UPDATE ".toList =
      ')' :: ' ' :: (phrase ["ON", "DUPLICATE", "KEY", "UPDATE"] ++ [' ']) := by decide
  have hconflict : ") ON CONFLICT (".toList =
      ')' :: ' ' :: (phrase ["ON", "CONFLICT"] ++ [' ', '(']) := by decide
  have hset : ") DO UPDATE SET ".toList =
      ')' :: ' ' :: (phrase ["DO", "UPDATE", "SET"] ++ [' ']) := by decide
  refine lex_of_reads hq ?_
  rw [Dialect.upsert, statement, conflictClause, hb]
  by_cases hmysql : b.isMysqlFamily = true
  · have hclause := reads_append hq (c := ' ') (by decide)
      (reads_phrase hq ["ON", "DUPLICATE", "KEY", "UPDATE"] (by decide)) hassignments
    have hblank := reads_append hq (c := ' ') (by decide) (reads_nil _) hclause
    have hall := reads_append hq (c := ')') (by decide) hopening hblank
    rw [if_pos hmysql, if_pos hmysql, hduplicate]
    simpa [separated] using hall
  · have hclause := reads_append hq (c := ' ') (by decide)
      (reads_phrase hq ["DO", "UPDATE", "SET"] (by decide)) hassignments
    have hafter := reads_append hq (c := ' ') (by decide) (reads_nil _) hclause
    have hname := reads_append hq (c := ')') (by decide) (reads_ident hq hd conflictCol) hafter
    have hparen := reads_append hq (c := '(') (by decide) (reads_nil _) hname
    have honto := reads_append hq (c := ' ') (by decide)
      (reads_phrase hq ["ON", "CONFLICT"] (by decide)) hparen
    have hblank := reads_append hq (c := ' ') (by decide) (reads_nil _) honto
    have hall := reads_append hq (c := ')') (by decide) hopening hblank
    rw [if_neg hmysql, if_neg hmysql, hconflict, hset]
    simpa [separated] using hall

end Shape

section Binds

variable {tokens values updates : List Token} {cols : List (List Char)}

def isPlaceholder : Token → Bool
  | .next | .slot _ => true
  | _ => false

theorem resolve_eq_self (k : ℕ) (h : Token.next ∉ tokens) : resolve k tokens = tokens := by
  induction tokens generalizing k with
  | nil => rfl
  | cons t tokens ih =>
    have hrest : Token.next ∉ tokens := fun hmem ↦ h (List.mem_cons_of_mem _ hmem)
    cases t with
    | next => exact absurd List.mem_cons_self h
    | name _ => exact congrArg _ (ih k hrest)
    | word _ => exact congrArg _ (ih k hrest)
    | mark _ => exact congrArg _ (ih k hrest)
    | slot _ => exact congrArg _ (ih k hrest)

theorem resolve_next (k n : ℕ) :
    resolve k (List.replicate n .next) = (List.range' k n).map .slot := by
  induction n generalizing k with
  | zero => rfl
  | succ n ih => exact congrArg (Token.slot k :: ·) (ih (k + 1))

theorem filter_resolve (k : ℕ) (tokens : List Token) :
    (resolve k tokens).filter isPlaceholder = resolve k (tokens.filter isPlaceholder) := by
  induction tokens generalizing k with
  | nil => rfl
  | cons t tokens ih =>
    cases t with
    | next => exact congrArg (Token.slot k :: ·) (ih (k + 1))
    | slot n => exact congrArg (Token.slot n :: ·) (ih k)
    | name _ => exact ih k
    | word _ => exact ih k
    | mark _ => exact ih k

theorem used_filter (tokens : List Token) : used (tokens.filter isPlaceholder) = used tokens := by
  rw [used, List.filterMap_filter]
  refine List.filterMap_congr (fun t _ ↦ ?_)
  cases t <;> rfl

theorem used_slots (ns : List ℕ) : used (ns.map .slot) = ns := by
  rw [used, List.filterMap_map]
  exact List.filterMap_some

theorem foldr_max_range' (s n : ℕ) {top : ℕ} (htop : top ≤ s + n) :
    (List.range' s (n + 1)).foldr max top = s + n := by
  induction n generalizing s with
  | zero => exact Nat.max_eq_left htop
  | succ n ih =>
    rw [List.range'_succ, List.foldr_cons, ih (s + 1) (by omega)]
    omega

theorem filter_commas (items : List (List Token)) :
    (commas items).filter isPlaceholder = items.flatMap (List.filter isPlaceholder) := by
  induction items with
  | nil => rfl
  | cons item items ih =>
    cases items with
    | nil => rw [commas, List.intercalate_singleton, List.flatMap_singleton]
    | cons next items =>
      rw [commas, List.intercalate_cons_cons, List.filter_append, List.filter_append,
        List.flatMap_cons]
      exact congrArg₂ (· ++ ·) (List.append_nil _) ih

theorem filter_singles (h : values.all isPlaceholder = true) :
    (values.map (fun v ↦ [v])).flatMap (List.filter isPlaceholder) = values := by
  induction values with
  | nil => rfl
  | cons v values ih =>
    rw [List.all_cons, Bool.and_eq_true] at h
    rw [List.map_cons, List.flatMap_cons, ih h.2, List.filter_singleton, h.1]
    rfl

theorem filter_assigns (hlength : updates.length = cols.length)
    (h : updates.all isPlaceholder = true) :
    (List.zipWith assign cols updates).flatMap (List.filter isPlaceholder) = updates := by
  induction cols generalizing updates with
  | nil => exact (List.length_eq_zero_iff.mp hlength).symm ▸ rfl
  | cons col cols ih =>
    cases updates with
    | nil => rfl
    | cons v updates =>
      rw [List.all_cons, Bool.and_eq_true] at h
      have hassign : (assign col v).filter isPlaceholder = [v] := by
        rw [assign, List.filter_cons, List.filter_cons, List.filter_singleton, h.1]
        rfl
      rw [List.zipWith_cons_cons, List.flatMap_cons, hassign, ih (by simpa using hlength) h.2]
      rfl

theorem filter_names (cols : List (List Char)) :
    (cols.map (fun c ↦ [Token.name c])).flatMap (List.filter isPlaceholder) = [] := by
  rw [List.flatMap_eq_nil_iff]
  intro item hitem
  obtain ⟨c, -, rfl⟩ := List.mem_map.mp hitem
  rfl

theorem filter_keywords (words : List String) :
    (keywords words).filter isPlaceholder = [] := by
  refine List.filter_eq_nil_iff.mpr (fun t ht ↦ ?_)
  obtain ⟨w, -, rfl⟩ := List.mem_map.mp ht
  exact Bool.false_ne_true

theorem filter_statement (b : Backend) (table : List Char) (conflictCol : List Char)
    (hvalues : values.all isPlaceholder = true) (hlength : updates.length = cols.length)
    (hupdates : updates.all isPlaceholder = true) :
    (statement b table cols conflictCol values updates).filter isPlaceholder =
      values ++ updates := by
  have hclause : (conflictClause b conflictCol).filter isPlaceholder = [] := by
    rw [conflictClause]
    split_ifs
    · exact filter_keywords _
    · simp [filter_keywords, isPlaceholder]
  simp only [statement, opening, List.filter_append, List.filter_cons, filter_keywords,
    filter_commas, filter_names, filter_singles hvalues, filter_assigns hlength hupdates, hclause]
  simp [isPlaceholder]

theorem all_placeholders (style : PlaceholderStyle) (start n : ℕ) :
    (placeholders style start n).all isPlaceholder = true := by
  rw [placeholders, List.all_map]
  refine List.all_eq_true.mpr (fun i _ ↦ ?_)
  cases style <;> rfl

theorem length_placeholders (style : PlaceholderStyle) (start n : ℕ) :
    (placeholders style start n).length = n := by
  rw [placeholders, List.length_map, List.length_range']

theorem filter_upsert (b : Backend) (style : PlaceholderStyle) (table : List Char)
    (cols : List (List Char)) (conflictCol : List Char) :
    (statement b table cols conflictCol (placeholders style 0 cols.length)
      (placeholders style 0 cols.length)).filter isPlaceholder =
      placeholders style 0 cols.length ++ placeholders style 0 cols.length :=
  filter_statement b table conflictCol (all_placeholders _ _ _) (length_placeholders _ _ _)
    (all_placeholders _ _ _)

theorem consumed_eq (tokens : List Token) :
    consumed tokens = (used (resolve 1 (tokens.filter isPlaceholder))).foldr max 0 := by
  rw [consumed, ← used_filter, filter_resolve]

theorem consumed_question (b : Backend) (table : List Char) (conflictCol : List Char)
    (hcols : cols ≠ []) :
    consumed (statement b table cols conflictCol (placeholders .question 0 cols.length)
      (placeholders .question 0 cols.length)) = 2 * cols.length := by
  have hpos := List.length_pos_of_ne_nil hcols
  obtain ⟨n, hn⟩ : ∃ n, cols.length + cols.length = n + 1 := ⟨2 * cols.length - 1, by omega⟩
  rw [consumed_eq, filter_upsert, placeholders_question, ← List.replicate_add, resolve_next,
    used_slots, hn, foldr_max_range' 1 n (Nat.zero_le _)]
  omega

theorem consumed_numbered (b : Backend) (table : List Char) (conflictCol : List Char)
    (cols : List (List Char)) :
    consumed (statement b table cols conflictCol (slots cols.length) (slots cols.length)) =
      cols.length := by
  have hnext : Token.next ∉ slots cols.length ++ slots cols.length := by
    simp [slots]
  rw [← placeholders_numbered, consumed_eq, filter_upsert, placeholders_numbered,
    resolve_eq_self 1 hnext, slots, ← List.map_append, used_slots, List.foldr_append]
  cases cols with
  | nil => rfl
  | cons col cols =>
    rw [List.length_cons, foldr_max_range' 1 cols.length (Nat.zero_le _),
      foldr_max_range' 1 cols.length (Nat.le_refl _), Nat.add_comm]

theorem resolve_numbered (b : Backend) (table : List Char) (conflictCol : List Char)
    (cols : List (List Char)) :
    resolve 1 (statement b table cols conflictCol (slots cols.length) (slots cols.length)) =
      statement b table cols conflictCol (slots cols.length) (slots cols.length) := by
  refine resolve_eq_self 1 (fun hmem ↦ ?_)
  have hfilter : Token.next ∈ (statement b table cols conflictCol (slots cols.length)
      (slots cols.length)).filter isPlaceholder := List.mem_filter.mpr ⟨hmem, rfl⟩
  rw [← placeholders_numbered, filter_upsert, placeholders_numbered] at hfilter
  simp [slots] at hfilter

end Binds

/-- The statement is faithful on the one backend whose placeholders are numbered. -/
theorem faithful_iff_postgres (b : Backend) (table : List Char) (cols : List (List Char))
    (conflictCol : List Char) (hcols : cols ≠ []) :
    Faithful b table cols conflictCol ↔ b = .postgres := by
  have hlex := lex_upsert b table cols conflictCol
  constructor
  · rintro ⟨tokens, htokens, hconsumed, -⟩
    by_contra hb
    have hstyle : (Dialect.forBackend b).placeholder = .question := by
      cases b with
      | postgres => exact absurd rfl hb
      | mysql => rfl
      | mariadb => rfl
      | sqlite => rfl
    rw [hlex, hstyle] at htokens
    rw [← Option.some.inj htokens, consumed_question b table conflictCol hcols] at hconsumed
    have hpos := List.length_pos_of_ne_nil hcols
    omega
  · rintro rfl
    have hstyle : (Dialect.forBackend .postgres).placeholder = .numbered := rfl
    rw [hstyle, placeholders_numbered] at hlex
    exact ⟨_, hlex, consumed_numbered _ _ _ _, resolve_numbered _ _ _ _⟩

theorem faithful_postgres :
    Faithful .postgres ['t'] [['a', '"'], ['b']] ['a', '"'] :=
  (faithful_iff_postgres .postgres ['t'] [['a', '"'], ['b']] ['a', '"']
    (List.cons_ne_nil _ _)).mpr rfl

/-- Two columns on a backend with `?`: four bind values are read. -/
theorem unfaithful_sqlite :
    ¬Faithful .sqlite ['t'] [['k'], ['v']] ['k'] ∧
    (lex Backend.sqlite.quote ((Dialect.forBackend .sqlite).upsert ['t'] [['k'], ['v']] ['k'])).map
      consumed = some 4 := by
  have hconsumed : (lex Backend.sqlite.quote
      ((Dialect.forBackend .sqlite).upsert ['t'] [['k'], ['v']] ['k'])).map consumed = some 4 := by
    decide +kernel
  refine ⟨?_, hconsumed⟩
  rintro ⟨tokens, htokens, htwo, -⟩
  rw [htokens, Option.map_some, htwo] at hconsumed
  exact absurd hconsumed (by decide)

end Aldivine.Databases.Dialects
