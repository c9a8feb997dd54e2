import Aldivine.Foundation.Decimals
import Mathlib.Data.List.Basic

namespace Aldivine.CfxLua.Backticks

open Foundation.Decimals

def tick : Char := '\x60'

def isQuote (c : Char) : Bool := c == '"' || c == '\x27'

def isIdentChar (c : Char) : Bool := c.isAlphanum || c == '_'

def isValidIdent (s : List Char) : Bool :=
  !s.isEmpty && s.head?.any (fun c ↦ c.isAlpha || c == '_') && s.all isIdentChar

def callStart : List Char := ['j', 'o', 'a', 'a', 't', '(', '"']

def callEnd : List Char := ['"', ')']

def joaatCall (name : List Char) : List Char := callStart ++ (name ++ callEnd)

/-- Both loops, from a character on: the character before it, and what the inner loop has collected
of a name. -/
def rewriteFrom : Option Char → Option (List Char) → List Char → List Char
  | _, none, [] => []
  | _, some name, [] => tick :: name
  | prev, none, c :: rest =>
    if c ≠ tick ∨ prev.any isQuote = true then c :: rewriteFrom (some c) none rest
    else rewriteFrom (some c) (some []) rest
  | _, some name, c :: rest =>
    if c = tick then
      (if isValidIdent name then joaatCall name else tick :: (name ++ [tick])) ++
        rewriteFrom (some c) none rest
    else rewriteFrom (some c) (some (name ++ [c])) rest

def rewriteBackticks (src : String) : String := String.ofList (rewriteFrom none none src.toList)

section Lexer

def isLineBreak (c : Char) : Bool := c == '\n' || c == '\r'

def isSpace (c : Char) : Bool := isLineBreak c || [' ', '\t', '\x0b', '\x0c'].contains c

/-- Where a string literal is: behind a backslash, in the white space that a `z` behind one skips,
or behind the first character of a line break that stands behind one. -/
inductive Within
  | plain
  | escaped
  | spaces
  | broken (c : Char)
deriving DecidableEq

def Within.take : Within → Char → Option Within
  | .plain, _ => none
  | .escaped, c => some (if c = 'z' then .spaces else if isLineBreak c then .broken c else .plain)
  | .spaces, c => if isSpace c then some .spaces else none
  | .broken b, c => if isLineBreak c ∧ c ≠ b then some .plain else none

def quotedEnd (q : Char) : Within → List Char → Option (List Char × List Char)
  | _, [] => none
  | s, c :: rest =>
    match s.take c with
    | some s' => (quotedEnd q s' rest).map (fun x ↦ (c :: x.1, x.2))
    | none =>
      if isLineBreak c then none
      else if c = q then some ([c], rest)
      else
        (quotedEnd q (if c = '\\' then .escaped else .plain) rest).map (fun x ↦ (c :: x.1, x.2))

def closeLong (close : List Char) : List Char → Option (List Char × List Char)
  | [] => none
  | c :: rest =>
    if close <+: c :: rest then some (close, (c :: rest).drop close.length)
    else (closeLong close rest).map (fun x ↦ (c :: x.1, x.2))

def longBracket (text : List Char) : Option (List Char × List Char) :=
  match text with
  | '[' :: rest =>
    match rest.dropWhile (· = '=') with
    | '[' :: body =>
      (closeLong (']' :: (rest.takeWhile (· = '=') ++ [']'])) body).map
        (fun x ↦ ('[' :: (rest.takeWhile (· = '=') ++ '[' :: x.1), x.2))
    | _ => none
  | _ => none

def guarded : List Char → Option (List Char × List Char)
  | [] => none
  | '-' :: '-' :: rest =>
    some ((longBracket rest).elim
      ('-' :: '-' :: rest.takeWhile (!isLineBreak ·), rest.dropWhile (!isLineBreak ·))
      (fun x ↦ ('-' :: '-' :: x.1, x.2)))
  | c :: rest =>
    if isQuote c then (quotedEnd c .plain rest).map (fun x ↦ (c :: x.1, x.2))
    else longBracket (c :: rest)

/-- Behind a backtick: an identifier that a second one closes, and what follows it. -/
def hashName (text : List Char) : Option (List Char × List Char) :=
  match text.dropWhile (· ≠ tick) with
  | [] => none
  | _ :: rest =>
    if isValidIdent (text.takeWhile (· ≠ tick)) then some (text.takeWhile (· ≠ tick), rest)
    else none

inductive Piece
  | code (c : Char)
  | hash (name : List Char)
  | guarded (text : List Char)
deriving DecidableEq

def Piece.text : Piece → List Char
  | .code c => [c]
  | .hash name => tick :: (name ++ [tick])
  | .guarded text => text

/-- What a source without backtick literals has in place of the piece. -/
def Piece.rewritten : Piece → List Char
  | .code c => [c]
  | .hash name => joaatCall name
  | .guarded text => text

def lexAt : ℕ → List Char → List Piece
  | 0, _ => []
  | _, [] => []
  | n + 1, c :: rest =>
    match guarded (c :: rest) with
    | some (text, after) => .guarded text :: lexAt n after
    | none =>
      match if c = tick then hashName rest else none with
      | some (name, after) => .hash name :: lexAt n after
      | none => .code c :: lexAt n rest

/-- A source as its comments and strings, its backtick literals, and the characters between them. -/
def lex (src : List Char) : List Piece := lexAt src.length src

end Lexer

/-- What the rewriter keeps in mind behind a text: whether it reads a name, and whether the last
character is a quote. -/
def scanStep (s : Bool × Bool) (c : Char) : Bool × Bool :=
  (if c = tick then !s.1 && !s.2 else s.1, isQuote c)

def scan (s : Bool × Bool) (text : List Char) : Bool × Bool := text.foldl scanStep s

/-- A backtick behind the text opens a name: it is not directly behind a quote, and the one before
it does not open one. -/
def Opens (text : List Char) : Prop := scan (false, false) text = (false, false)

instance : DecidablePred Opens := fun _ ↦ inferInstanceAs (Decidable (_ = _))

def named (text : List Char) : Bool := (hashName text).isSome

/-- What the piece asks of the text before it: an identifier in backticks is opened, and none inside
a comment or a string is. -/
def Meets (before : List Char) : Piece → Prop
  | .code _ => True
  | .hash _ => Opens before
  | .guarded text => ∀ front rest, text = front ++ tick :: rest → named rest = true →
      ¬Opens (before ++ front)

variable {text rest after front name before mid : List Char} {s : Bool × Bool} {q : Bool}
  {pieces : List Piece}

section Names

theorem isIdentChar_of_valid (h : isValidIdent name = true) : name.all isIdentChar = true := by
  rw [isValidIdent, Bool.and_eq_true] at h
  exact h.2

theorem tick_notMem (h : isValidIdent name = true) : tick ∉ name := by
  intro hmem
  have htick := List.all_eq_true.mp (isIdentChar_of_valid h) tick hmem
  revert htick
  decide

theorem hashName_tick (hname : tick ∉ name) (after : List Char) :
    hashName (name ++ tick :: after) = if isValidIdent name then some (name, after) else none := by
  have hall : name.all (fun c ↦ decide (c ≠ tick)) = true := by
    rw [List.all_eq_true]
    intro c hc
    exact decide_eq_true (fun heq ↦ hname (heq ▸ hc))
  have hstop : ∀ c ∈ (tick :: after).head?, ¬decide (c ≠ tick) = true := by simp
  rw [hashName, dropWhile_append_of_head hall hstop, takeWhile_append_of_head hall hstop]

theorem hashName_eq_some : hashName text = some (name, after) ↔
    text = name ++ tick :: after ∧ isValidIdent name = true := by
  constructor
  · intro h
    unfold hashName at h
    split at h
    · cases h
    · rename_i c rest hdrop
      split_ifs at h with hvalid
      cases h
      have hsplit := List.takeWhile_append_dropWhile (p := fun c ↦ decide (c ≠ tick)) (l := text)
      have hc := List.head?_dropWhile_not (fun c ↦ decide (c ≠ tick)) text
      rw [hdrop] at hc hsplit
      rw [show c = tick by simpa using hc] at hsplit
      exact ⟨hsplit.symm, hvalid⟩
  · intro h
    rw [h.1, hashName_tick (tick_notMem h.2), if_pos h.2]

theorem named_iff : named text = true ↔
    ∃ name after, text = name ++ tick :: after ∧ isValidIdent name = true := by
  rw [named, Option.isSome_iff_exists]
  constructor
  · intro h
    obtain ⟨x, hx⟩ := h
    exact ⟨x.1, x.2, hashName_eq_some.mp hx⟩
  · intro h
    obtain ⟨name, after, h⟩ := h
    exact ⟨(name, after), hashName_eq_some.mpr h⟩

theorem named_tick (hname : tick ∉ name) (after : List Char) :
    named (name ++ tick :: after) = isValidIdent name := by
  rw [named, hashName_tick hname]
  cases isValidIdent name with
  | true => rfl
  | false => rfl

theorem named_of_notMem (h : tick ∉ text) : named text = false := by
  rw [← Bool.not_eq_true, named_iff]
  intro hnamed
  obtain ⟨name, after, rfl, -⟩ := hnamed
  exact h (by simp)

end Names

section Emitting

/-- The rewriter, one character at a time: behind a text that left it in state `s`, within a name
that it replaces if `literal`. -/
def emit : Bool × Bool → Bool → List Char → List Char
  | _, _, [] => []
  | s, literal, c :: rest =>
    if c = tick then
      if s = (false, false) then
        if named rest then callStart ++ emit (scanStep s c) true rest
        else c :: emit (scanStep s c) false rest
      else (if literal then callEnd else [c]) ++ emit (scanStep s c) false rest
    else c :: emit (scanStep s c) literal rest

theorem scanStep_of_ne {c : Char} (h : c ≠ tick) : scanStep s c = (s.1, isQuote c) := by
  rw [scanStep, if_neg h]

theorem emit_of_ne {c : Char} (h : c ≠ tick) (literal : Bool) :
    emit s literal (c :: rest) = c :: emit (s.1, isQuote c) literal rest := by
  rw [emit, if_neg h, scanStep_of_ne h]

theorem emit_open : emit (false, false) false (tick :: rest) =
    (if named rest then callStart else [tick]) ++ emit (true, false) (named rest) rest := by
  rw [emit, if_pos rfl, if_pos rfl]
  cases named rest with
  | true => rfl
  | false => rfl

theorem scanStep_close (h : s.1 = true) : scanStep s tick = (false, false) := by
  rw [scanStep, if_pos rfl, h]
  rfl

theorem emit_close (h : s.1 = true) (literal : Bool) : emit s literal (tick :: rest) =
    (if literal then callEnd else [tick]) ++ emit (false, false) false rest := by
  have hs : s ≠ (false, false) := fun heq ↦ by simp [heq] at h
  rw [emit, if_pos rfl, if_neg hs, scanStep_close h]

theorem isQuote_tick : isQuote tick = false := by decide

theorem emit_skip :
    emit (false, true) false (tick :: rest) = tick :: emit (false, false) false rest := rfl

theorem scan_fst (hname : tick ∉ name) : (scan s name).1 = s.1 := by
  induction name generalizing s with
  | nil => rfl
  | cons c name ih =>
    rw [List.mem_cons, not_or] at hname
    rw [scan, List.foldl_cons, scanStep_of_ne (Ne.symm hname.1)]
    exact ih hname.2

theorem emit_name (hname : tick ∉ name) (literal : Bool) (rest : List Char) :
    emit s literal (name ++ rest) = name ++ emit (scan s name) literal rest := by
  induction name generalizing s with
  | nil => rfl
  | cons c name ih =>
    rw [List.mem_cons, not_or] at hname
    rw [List.cons_append, emit_of_ne (Ne.symm hname.1), ih hname.2, scan, scan, List.foldl_cons,
      scanStep_of_ne (Ne.symm hname.1), List.cons_append]

/-- The source's loops do what the rewriter does one character at a time. -/
theorem rewriteFrom_eq (rest : List Char) :
    (∀ prev : Option Char,
      rewriteFrom prev none rest = emit (false, prev.any isQuote) false rest) ∧
    ∀ prev name q, tick ∉ name → rewriteFrom prev (some name) rest =
      (if named (name ++ rest) then callStart else [tick]) ++
        (name ++ emit (true, q) (named (name ++ rest)) rest) := by
  induction rest with
  | nil =>
    refine ⟨fun _ ↦ rfl, fun prev name q hname ↦ ?_⟩
    rw [List.append_nil, named_of_notMem hname, rewriteFrom, emit, List.append_nil]
    rfl
  | cons c rest ih =>
    obtain ⟨hout, hin⟩ := ih
    refine ⟨fun prev ↦ ?_, fun prev name q hname ↦ ?_⟩
    · by_cases hc : c = tick
      · subst hc
        cases hprev : prev.any isQuote with
        | true =>
          rw [rewriteFrom, if_pos (.inr hprev), emit_skip, hout, Option.any_some, isQuote_tick]
        | false =>
          rw [rewriteFrom, if_neg (by simp [hprev]), emit_open,
            hin (some tick) [] false List.not_mem_nil]
          rfl
      · rw [rewriteFrom, if_pos (.inl hc), emit_of_ne hc, hout]
        rfl
    · by_cases hc : c = tick
      · subst hc
        rw [rewriteFrom, if_pos rfl, named_tick hname, emit_close rfl, hout]
        cases isValidIdent name with
        | true =>
          rw [if_pos rfl, if_pos rfl, if_pos rfl, joaatCall, Option.any_some, isQuote_tick,
            List.append_assoc, List.append_assoc]
        | false => simp [isQuote_tick]
      · have hnext : tick ∉ name ++ [c] := by
          simp [hname, Ne.symm hc]
        rw [rewriteFrom, if_neg hc, hin _ _ (isQuote c) hnext, emit_of_ne hc, List.append_assoc,
          List.append_assoc]
        rfl

end Emitting

section Again

theorem named_emit (h : s.1 = true) (rest : List Char) :
    named (emit s false rest) = named rest := by
  by_cases htick : tick ∈ rest
  · obtain ⟨name, after, rfl, hname⟩ := List.eq_append_cons_of_mem htick
    rw [emit_name hname, emit_close ((scan_fst hname).trans h), named_tick hname]
    exact named_tick hname _
  · have hemit := emit_name (s := s) htick false []
    rw [List.append_nil, emit, List.append_nil] at hemit
    rw [hemit]

theorem emit_callStart (rest : List Char) :
    emit (false, false) false (callStart ++ rest) =
      callStart ++ emit (false, true) false rest := rfl

theorem emit_callEnd (q : Bool) (rest : List Char) :
    emit (false, q) false (callEnd ++ rest) = callEnd ++ emit (false, false) false rest := rfl

/-- What was written once is copied: outside of names both scans are in one state, and a name that
was replaced is plain text for the second one. -/
theorem emit_emit (text : List Char) {s s' : Bool × Bool} {literal : Bool}
    (hcopy : literal = false → s' = s) (hreplace : literal = true → s.1 = true ∧ s'.1 = false) :
    emit s' false (emit s literal text) = emit s literal text := by
  induction text generalizing s s' literal with
  | nil => rfl
  | cons c rest ih =>
    have hsame (u : Bool × Bool) : emit u false (emit u false rest) = emit u false rest :=
      ih (fun _ ↦ rfl) nofun
    by_cases hc : c = tick
    · subst hc
      by_cases hs : s = (false, false)
      · subst hs
        obtain rfl : literal = false := by
          rw [← Bool.not_eq_true]
          intro hliteral
          cases (hreplace hliteral).1
        obtain rfl := hcopy rfl
        rw [emit_open]
        cases hnamed : named rest with
        | true =>
          have hrest := @ih (true, false) (false, true) true nofun (fun _ ↦ ⟨rfl, rfl⟩)
          rw [if_pos rfl, emit_callStart, hrest]
        | false =>
          rw [if_neg Bool.false_ne_true, List.singleton_append, emit_open, named_emit rfl, hnamed,
            if_neg Bool.false_ne_true, hsame, List.singleton_append]
      · cases literal with
        | true =>
          obtain ⟨hin, hout⟩ := hreplace rfl
          obtain ⟨_, q'⟩ := s'
          subst hout
          rw [emit_close hin, if_pos rfl, emit_callEnd, hsame]
        | false =>
          obtain rfl := hcopy rfl
          have hkeep (out : List Char) :
              emit s' false (tick :: out) = tick :: emit (scanStep s' tick) false out := by
            rw [emit, if_pos rfl, if_neg hs, if_neg Bool.false_ne_true, List.singleton_append]
          rw [hkeep, hkeep, hsame]
    · rw [emit_of_ne hc, emit_of_ne hc, ih]
      · intro hliteral
        rw [hcopy hliteral]
      · intro hliteral
        exact hreplace hliteral

end Again

section Pieces

/-- What a comment or a string ends with stands in no name. -/
structure Split (text front rest : List Char) : Prop where
  text_eq : text = front ++ rest
  ends : rest = [] ∨ (∃ c after, rest = c :: after ∧ isLineBreak c = true) ∨
    ∃ init x, front = init ++ [x] ∧ x ∈ ['"', '\x27', ']']

theorem Split.cons {c : Char} (h : Split text front rest) :
    Split (c :: text) (c :: front) rest := by
  refine ⟨by rw [h.text_eq, List.cons_append], ?_⟩
  obtain hnil | hline | ⟨init, x, rfl, hx⟩ := h.ends
  · exact .inl hnil
  · exact .inr (.inl hline)
  · exact .inr (.inr ⟨c :: init, x, rfl, hx⟩)

theorem Split.append (h : Split text front rest) (init : List Char) :
    Split (init ++ text) (init ++ front) rest := by
  induction init with
  | nil => exact h
  | cons c init ih => exact ih.cons

theorem split_quotedEnd {c : Char} (hc : isQuote c = true) {w : Within}
    (h : quotedEnd c w text = some (front, rest)) : Split text front rest := by
  induction text generalizing w front with
  | nil => cases h
  | cons d text ih =>
    rw [quotedEnd] at h
    cases htake : w.take d with
    | some w' =>
      rw [htake] at h
      obtain ⟨x, hx, heq⟩ := Option.map_eq_some_iff.mp h
      cases heq
      exact (ih hx).cons
    | none =>
      simp only [htake] at h
      split_ifs at h with hline hd
      · cases h
        refine ⟨rfl, .inr (.inr ⟨[], d, rfl, ?_⟩)⟩
        rw [hd]
        simpa [isQuote, or_assoc] using Or.inl hc
      all_goals
        obtain ⟨x, hx, heq⟩ := Option.map_eq_some_iff.mp h
        cases heq
        exact (ih hx).cons

theorem split_closeLong (close : List Char)
    (h : closeLong (close ++ [']']) text = some (front, rest)) : Split text front rest := by
  induction text generalizing front with
  | nil => cases h
  | cons c text ih =>
    rw [closeLong] at h
    split_ifs at h with hclose
    · cases h
      refine ⟨?_, .inr (.inr ⟨close, ']', rfl, by simp⟩)⟩
      exact (List.prefix_iff_eq_append.mp hclose).symm
    · obtain ⟨x, hx, heq⟩ := Option.map_eq_some_iff.mp h
      cases heq
      exact (ih hx).cons

theorem split_longBracket (h : longBracket text = some (front, rest)) : Split text front rest := by
  unfold longBracket at h
  split at h
  · rename_i after
    split at h
    · rename_i body hdrop
      obtain ⟨x, hx, heq⟩ := Option.map_eq_some_iff.mp h
      cases heq
      have hsplit : Split (after.takeWhile (· = '=') ++ '[' :: body)
          (after.takeWhile (· = '=') ++ '[' :: x.1) x.2 :=
        (split_closeLong (']' :: after.takeWhile (· = '=')) hx).cons.append _
      rw [← hdrop, List.takeWhile_append_dropWhile] at hsplit
      exact hsplit.cons
    · cases h
  · cases h

theorem split_guarded (h : guarded text = some (front, rest)) : Split text front rest := by
  unfold guarded at h
  split at h
  · cases h
  · rename_i after
    cases hlong : longBracket after with
    | none =>
      rw [hlong] at h
      cases h
      refine ⟨by simp, ?_⟩
      cases hdrop : after.dropWhile (!isLineBreak ·) with
      | nil => exact .inl rfl
      | cons c rest =>
        have hc := List.head?_dropWhile_not (!isLineBreak ·) after
        rw [hdrop] at hc
        exact .inr (.inl ⟨c, rest, rfl, by simpa using hc⟩)
    | some x =>
      rw [hlong] at h
      cases h
      exact (split_longBracket hlong).cons.cons
  · rename_i c after _
    split_ifs at h with hc
    · obtain ⟨x, hx, heq⟩ := Option.map_eq_some_iff.mp h
      cases heq
      exact (split_quotedEnd hc hx).cons
    · exact split_longBracket h

/-- An identifier in backticks that begins in a comment or a string ends in it. -/
theorem Split.named_eq (h : Split text (front ++ tick :: mid) rest) :
    named (mid ++ rest) = named mid := by
  by_cases htick : tick ∈ mid
  · obtain ⟨first, later, rfl, hfirst⟩ := List.eq_append_cons_of_mem htick
    rw [List.append_assoc, List.cons_append, named_tick hfirst, named_tick hfirst]
  · rw [named_of_notMem htick, ← Bool.not_eq_true, named_iff]
    intro hnamed
    obtain ⟨name, after, heq, hvalid⟩ := hnamed
    have hident := List.all_eq_true.mp (isIdentChar_of_valid hvalid)
    obtain ⟨more, hname, hrest⟩ : ∃ more, name = mid ++ more ∧ rest = more ++ tick :: after := by
      obtain hlong | ⟨more, hmid, hrest⟩ := List.append_eq_append_iff.mp heq
      · exact hlong
      · cases more with
        | nil => exact ⟨[], by simpa using hmid.symm, hrest.symm⟩
        | cons c more =>
          cases hrest
          exact absurd (by simp [hmid]) htick
    obtain hnil | ⟨c, line, hline, hc⟩ | ⟨init, x, hlast, hx⟩ := h.ends
    · rw [hnil] at hrest
      cases more <;> cases hrest
    · rw [hline] at hrest
      have hnot : isIdentChar c = false ∧ c ≠ tick := by
        rw [isLineBreak, Bool.or_eq_true, beq_iff_eq, beq_iff_eq] at hc
        rcases hc with rfl | rfl <;> decide
      cases more with
      | nil => exact absurd (List.cons.inj hrest).1 hnot.2
      | cons d more =>
        obtain rfl := (List.cons.inj hrest).1
        have hgood := hident c (by simp [hname])
        rw [hnot.1] at hgood
        cases hgood
    · have hmem : x ∈ tick :: mid := by
        have hget := congrArg List.getLast? hlast
        rw [List.getLast?_concat, List.getLast?_append_cons] at hget
        exact List.mem_of_getLast? hget
      have hstop : isIdentChar x = false ∧ x ≠ tick := by
        simp only [List.mem_cons, List.not_mem_nil, or_false] at hx
        rcases hx with rfl | rfl | rfl <;> decide
      have hxmid := (List.mem_cons.mp hmem).resolve_left hstop.2
      have hgood := hident x (by rw [hname]; exact List.mem_append_left _ hxmid)
      rw [hstop.1] at hgood
      cases hgood

inductive Lexed : List Char → List Piece → Prop
  | nil : Lexed [] []
  | guarded {text front rest : List Char} {pieces : List Piece} (hsplit : Split text front rest)
    (h : Lexed rest pieces) : Lexed text (.guarded front :: pieces)
  | hash {name after : List Char} {pieces : List Piece} (hvalid : isValidIdent name = true)
    (h : Lexed after pieces) : Lexed (tick :: (name ++ tick :: after)) (.hash name :: pieces)
  | code {c : Char} {rest : List Char} {pieces : List Piece} (hcode : c = tick → named rest = false)
    (h : Lexed rest pieces) : Lexed (c :: rest) (.code c :: pieces)

theorem guarded_ne_nil (h : guarded text = some (front, rest)) : front ≠ [] := by
  unfold guarded at h
  split at h
  · cases h
  · rename_i after
    cases hlong : longBracket after with
    | none =>
      rw [hlong] at h
      cases h
      exact List.cons_ne_nil _ _
    | some x =>
      rw [hlong] at h
      cases h
      exact List.cons_ne_nil _ _
  · split_ifs at h
    · obtain ⟨x, hx, heq⟩ := Option.map_eq_some_iff.mp h
      cases heq
      exact List.cons_ne_nil _ _
    · unfold longBracket at h
      split at h
      · split at h
        · obtain ⟨x, hx, heq⟩ := Option.map_eq_some_iff.mp h
          cases heq
          exact List.cons_ne_nil _ _
        · cases h
      · cases h

theorem lexed_lexAt (n : ℕ) {text : List Char} (h : text.length ≤ n) :
    Lexed text (lexAt n text) := by
  induction n generalizing text with
  | zero =>
    rw [List.length_eq_zero_iff.mp (Nat.le_zero.mp h)]
    exact .nil
  | succ n ih =>
    cases text with
    | nil => exact .nil
    | cons c rest =>
      rw [lexAt]
      cases hguarded : guarded (c :: rest) with
      | some x =>
        have hsplit := split_guarded hguarded
        have hlength := congrArg List.length hsplit.text_eq
        have hpos := List.length_pos_iff.mpr (guarded_ne_nil hguarded)
        rw [List.length_append] at hlength
        exact .guarded hsplit (ih (by omega))
      | none =>
        dsimp only
        cases hhash : if c = tick then hashName rest else none with
        | some x =>
          split_ifs at hhash with hc
          obtain ⟨rfl, hvalid⟩ := hashName_eq_some.mp hhash
          rw [hc]
          refine .hash hvalid (ih ?_)
          simp only [List.length_cons, List.length_append] at h
          omega
        | none =>
          refine .code (fun hc ↦ ?_) (ih (Nat.le_of_succ_le_succ h))
          rw [if_pos hc] at hhash
          rw [named, hhash, Option.isSome_none]

theorem lexed_lex (text : List Char) : Lexed text (lex text) := lexed_lexAt _ le_rfl

theorem Lexed.flatMap_text (h : Lexed text pieces) : pieces.flatMap Piece.text = text := by
  induction h with
  | nil => rfl
  | guarded hsplit h ih => rw [List.flatMap_cons, ih, hsplit.text_eq, Piece.text]
  | hash hvalid h ih => rw [List.flatMap_cons, ih, Piece.text]; simp
  | code hcode h ih => rw [List.flatMap_cons, ih, Piece.text, List.singleton_append]

theorem flatMap_lex (src : List Char) : (lex src).flatMap Piece.text = src :=
  (lexed_lex src).flatMap_text

end Pieces

section Results

/-- `Meets`, where the text before the piece left the rewriter in state `s`. -/
def MeetsAt (s : Bool × Bool) : Piece → Prop
  | .code _ => True
  | .hash _ => s = (false, false)
  | .guarded text => ∀ front rest, text = front ++ tick :: rest → named rest = true →
      scan s front ≠ (false, false)

def MeetsAll (s : Bool × Bool) (pieces : List Piece) : Prop :=
  ∀ before p after, pieces = before ++ p :: after → MeetsAt (scan s (before.flatMap Piece.text)) p

theorem scan_append (text more : List Char) : scan s (text ++ more) = scan (scan s text) more :=
  List.foldl_append

theorem meets_iff (p : Piece) : Meets before p ↔ MeetsAt (scan (false, false) before) p := by
  cases p with
  | code c => exact Iff.rfl
  | hash name => exact Iff.rfl
  | guarded text =>
    refine forall₄_congr (fun front rest _ _ ↦ not_congr ?_)
    rw [Opens, scan_append]

theorem meetsAll_cons (p : Piece) :
    MeetsAll s (p :: pieces) ↔ MeetsAt s p ∧ MeetsAll (scan s p.text) pieces := by
  constructor
  · intro h
    refine ⟨h [] p pieces rfl, fun before p' after heq ↦ ?_⟩
    have hmeets := h (p :: before) p' after (by rw [heq, List.cons_append])
    rwa [List.flatMap_cons, scan_append] at hmeets
  · intro h before p' after heq
    cases before with
    | nil =>
      cases heq
      exact h.1
    | cons p'' before =>
      cases heq
      have hmeets := h.2 before p' after rfl
      rwa [List.flatMap_cons, scan_append]

theorem meetsAt_cons {c : Char} : MeetsAt s (.guarded (c :: text)) ↔
    (c = tick → named text = true → s ≠ (false, false)) ∧
      MeetsAt (scanStep s c) (.guarded text) := by
  constructor
  · intro h
    refine ⟨fun hc hnamed ↦ h [] text (by rw [hc, List.nil_append]) hnamed, ?_⟩
    intro front rest heq hnamed
    exact h (c :: front) rest (by rw [heq, List.cons_append]) hnamed
  · intro h front rest heq hnamed
    cases front with
    | nil =>
      cases heq
      exact h.1 rfl hnamed
    | cons d front =>
      cases heq
      exact h.2 front rest rfl hnamed

/-- A comment or a string is copied exactly if no identifier in it is opened. -/
theorem emit_guarded_iff (out : List Char)
    (hnamed : ∀ front mid, text = front ++ tick :: mid → named (mid ++ rest) = named mid) :
    emit s false (text ++ rest) = text ++ out ↔
      MeetsAt s (.guarded text) ∧ emit (scan s text) false rest = out := by
  induction text generalizing s with
  | nil =>
    refine (and_iff_right ?_).symm
    intro front mid heq
    cases front <;> cases heq
  | cons c text ih =>
    have hih := fun s ↦ ih (s := s)
      (fun front mid heq ↦ hnamed (c :: front) mid (by rw [heq, List.cons_append]))
    rw [meetsAt_cons, scan, List.foldl_cons]
    by_cases hc : c = tick
    · subst hc
      by_cases hs : s = (false, false)
      · subst hs
        rw [List.cons_append, emit_open, hnamed [] text rfl]
        cases hopen : named text with
        | true =>
          refine iff_of_false (fun heq ↦ ?_) (fun h ↦ h.1.1 rfl rfl rfl)
          have hhead : 'j' = tick := (List.cons.inj heq).1
          revert hhead
          decide
        | false =>
          have hstep : scanStep (false, false) tick = (true, false) := rfl
          rw [if_neg Bool.false_ne_true, List.singleton_append, List.cons_append,
            List.cons_inj_right, hih, hstep, and_assoc]
          exact (and_iff_right (fun _ hfalse ↦ absurd hfalse Bool.false_ne_true)).symm
      · rw [List.cons_append, emit, if_pos rfl, if_neg hs, if_neg Bool.false_ne_true,
          List.singleton_append, List.cons_append, List.cons_inj_right, hih, and_assoc]
        exact (and_iff_right (fun _ _ ↦ hs)).symm
    · rw [List.cons_append, List.cons_append, emit, if_neg hc, List.cons_inj_right, hih, and_assoc]
      exact (and_iff_right (fun heq ↦ absurd heq hc)).symm

/-- A backtick literal is replaced exactly if its first backtick opens a name. -/
theorem emit_hash_iff (hvalid : isValidIdent name = true) (out : List Char) :
    emit s false (tick :: (name ++ tick :: after)) = joaatCall name ++ out ↔
      s = (false, false) ∧
        emit (scan s (Piece.hash name).text) false after = out := by
  have hname := tick_notMem hvalid
  by_cases hs : s = (false, false)
  · subst hs
    have hscan : scan (false, false) (Piece.hash name).text = (false, false) := by
      rw [Piece.text, scan, List.foldl_cons, List.foldl_append]
      exact scanStep_close ((scan_fst hname).trans rfl)
    rw [hscan, emit_open, named_tick hname, hvalid, emit_name hname,
      emit_close ((scan_fst hname).trans rfl), if_pos rfl, if_pos rfl, joaatCall,
      ← List.append_assoc name, ← List.append_assoc callStart, List.append_cancel_left_eq]
    exact (and_iff_right rfl).symm
  · refine iff_of_false (fun heq ↦ ?_) (fun h ↦ hs h.1)
    rw [emit, if_pos rfl, if_neg hs] at heq
    have hhead : tick = 'j' := (List.cons.inj heq).1
    revert hhead
    decide

theorem Lexed.emit_iff (h : Lexed text pieces) :
    emit s false text = pieces.flatMap Piece.rewritten ↔ MeetsAll s pieces := by
  induction h generalizing s with
  | nil => exact iff_of_true rfl (fun before p after heq ↦ by cases before <;> cases heq)
  | guarded hsplit h ih =>
    rw [meetsAll_cons, List.flatMap_cons, hsplit.text_eq, Piece.rewritten, Piece.text, ← ih]
    refine emit_guarded_iff _ (fun first mid heq ↦ ?_)
    rw [heq] at hsplit
    exact hsplit.named_eq
  | hash hvalid h ih =>
    rw [meetsAll_cons, List.flatMap_cons, Piece.rewritten, ← ih]
    exact emit_hash_iff hvalid _
  | @code c rest pieces hcode h ih =>
    have hcopied : emit s false (c :: rest) = c :: emit (scanStep s c) false rest := by
      by_cases hc : c = tick
      · by_cases hs : s = (false, false)
        · rw [emit, if_pos hc, if_pos hs, hcode hc, if_neg Bool.false_ne_true]
        · rw [emit, if_pos hc, if_neg hs, if_neg Bool.false_ne_true, List.singleton_append]
      · rw [emit, if_neg hc]
    rw [meetsAll_cons, List.flatMap_cons, hcopied, ← ih, Piece.rewritten, List.singleton_append,
      List.cons_inj_right]
    exact (and_iff_right trivial).symm

/-- Backtick literals in code are replaced and everything else is copied, once for all. -/
structure Rewrites (src : String) : Prop where
  pieces : (rewriteBackticks src).toList = (lex src.toList).flatMap Piece.rewritten
  again : rewriteBackticks (rewriteBackticks src) = rewriteBackticks src

theorem toList_rewriteBackticks (src : String) :
    (rewriteBackticks src).toList = emit (false, false) false src.toList := by
  rw [rewriteBackticks, String.toList_ofList, (rewriteFrom_eq _).1]
  rfl

theorem rewriteBackticks_idem (src : String) :
    rewriteBackticks (rewriteBackticks src) = rewriteBackticks src := by
  rw [← String.toList_inj, toList_rewriteBackticks, toList_rewriteBackticks]
  exact emit_emit _ (fun _ ↦ rfl) nofun

/-- The rewriter replaces what it should exactly when the first backtick of every literal opens a
name and no identifier in a comment or a string is opened. -/
theorem rewrites_iff (src : String) : Rewrites src ↔
    ∀ before p after, lex src.toList = before ++ p :: after →
      Meets (before.flatMap Piece.text) p := by
  have hmeets := (lexed_lex src.toList).emit_iff (s := (false, false))
  constructor
  · intro h before p after heq
    have hpieces := h.pieces
    rw [toList_rewriteBackticks] at hpieces
    exact (meets_iff p).mpr (hmeets.mp hpieces before p after heq)
  · intro h
    refine ⟨?_, rewriteBackticks_idem src⟩
    rw [toList_rewriteBackticks]
    exact hmeets.mpr (fun before p after heq ↦ (meets_iff p).mp (h before p after heq))

/-- A backtick in the middle of a string is taken for code. -/
theorem inString_rewritten : ¬Rewrites "x = \"a \x60b\x60 c\"" := by
  intro h
  have hpieces := h.pieces
  revert hpieces
  decide

end Results

end Aldivine.CfxLua.Backticks
