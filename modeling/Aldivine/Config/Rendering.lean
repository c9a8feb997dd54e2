import Aldivine.Config.Tokens

namespace Aldivine.Config.Rendering

open Foundation.Fallible Foundation.Text Foundation.Utf8 Parsing Syntax Tokens

section Clean

def plain (c : Char) : Bool := decide (c.toNat < 128) && c != '\n'

inductive Mode
  | verb
  | gap
  | bare
  | quoted
  | escaped

/-- Between quotes there is only ASCII, and no escape of a newline. -/
def clean : Mode → List Char → Bool
  | _, [] => true
  | .verb, c :: text => clean (if isWs c then .gap else if c = '"' then .quoted else .verb) text
  | .gap, c :: text => clean (if isWs c then .gap else if c = '"' then .quoted else .bare) text
  | .bare, c :: text => clean (if isWs c then .gap else .bare) text
  | .quoted, c :: text =>
    if c = '"' then clean .gap text
    else if c = '\\' then clean .escaped text else plain c && clean .quoted text
  | .escaped, c :: text => c != 'n' && plain c && clean .quoted text

def cleanLine (raw : List Char) : Bool :=
  let body := trimCr (raw.dropWhile isWhitespace)
  isComment body || clean .verb body

def CleanText (text : String) : Prop := ∀ raw ∈ segments text.toList, cleanLine raw = true

def goodValue : Value → Bool
  | .bare _ => true
  | .quoted text => text.toList.all plain

theorem plain_quotedChars (c : Char) : (quotedChars c).all plain = plain c := by
  unfold quotedChars
  by_cases hc : c.toNat < 128
  · rw [encodeChar_ascii hc, List.map_singleton, asChar_ofNat hc]
    simp
  · obtain ⟨hhigh, -⟩ := encodeChar_high (Nat.le_of_not_lt hc)
    obtain ⟨b, bytes, hb⟩ := List.exists_cons_of_ne_nil (@String.utf8EncodeChar_ne_nil c)
    have hbyte := hhigh b (hb ▸ List.mem_cons_self)
    have hfirst : plain (asChar b) = false := by
      rw [plain, toNat_asChar, decide_eq_false (Nat.not_lt.mpr hbyte), Bool.false_and]
    rw [hb, List.map_cons, List.all_cons, hfirst, Bool.false_and, plain, decide_eq_false hc,
      Bool.false_and]

theorem plain_escapedChars (c : Char) :
    (escapedChars c).all plain = (c != 'n' && plain c) := by
  unfold escapedChars
  split
  · rename_i hc
    rw [hc]
    decide
  rename_i hn
  have hne : (c != 'n') = true := bne_iff_ne.mpr hn
  split
  · rename_i hc
    rw [hc]
    decide
  split
  · rename_i hc
    rw [hc]
    decide
  · rw [plain_quotedChars, hne, Bool.true_and]

theorem clean_rawQuoted {text value tail : List Char} (h : rawQuoted text = some (value, tail)) :
    clean .quoted text = (value.all plain && clean .gap tail) := by
  fun_induction rawQuoted text generalizing value with
  | case1 => cases h
  | case2 text =>
    cases h
    rfl
  | case3 => cases h
  | case4 c text ih =>
    obtain ⟨x, hx, heq⟩ := Option.map_eq_some_iff.mp h
    cases heq
    have hclean : clean .quoted ('\\' :: c :: text) = (c != 'n' && plain c && clean .quoted text) :=
      rfl
    rw [hclean, ih hx, List.all_append, plain_escapedChars, Bool.and_assoc _ _ (clean .gap _)]
  | case5 c text hquote hend hescape ih =>
    obtain ⟨x, hx, heq⟩ := Option.map_eq_some_iff.mp h
    cases heq
    rw [clean, if_neg hquote, if_neg (ne_backslash hend hescape), ih hx, List.all_append, plain_quotedChars,
      Bool.and_assoc]

theorem clean_gap (text : List Char) : clean .gap text = clean .gap (text.dropWhile isWs) := by
  induction text with
  | nil => rfl
  | cons c text ih =>
    cases hc : isWs c with
    | true => rw [List.dropWhile_cons_of_pos hc, ← ih, clean, if_pos hc]
    | false => rw [List.dropWhile_cons_of_neg (by simp [hc])]

theorem clean_bare (text : List Char) : clean .bare text = clean .gap (text.dropWhile isBare) := by
  induction text with
  | nil => rfl
  | cons c text ih =>
    have hbare := isBare_eq c
    cases hc : isWs c with
    | true =>
      rw [hc] at hbare
      rw [List.dropWhile_cons_of_neg (by simp [hbare]), clean, clean, if_pos hc, if_pos hc]
    | false =>
      rw [hc] at hbare
      rw [List.dropWhile_cons_of_pos hbare, ← ih, clean, if_neg (by simp [hc])]

theorem clean_verb (text : List Char) : clean .verb text = clean .gap (text.dropWhile isVerb) := by
  induction text with
  | nil => rfl
  | cons c text ih =>
    have hverb := isVerb_eq c
    cases hc : isWs c with
    | true =>
      rw [hc] at hverb
      rw [List.dropWhile_cons_of_neg (by simp [hverb]), clean, clean, if_pos hc, if_pos hc]
    | false =>
      rw [hc] at hverb
      have hws : ¬isWs c = true := by simp [hc]
      by_cases hquote : c = '"'
      · rw [List.dropWhile_cons_of_neg (by rw [hverb, hquote]; decide), clean, clean, if_neg hws,
          if_neg hws, if_pos hquote, if_pos hquote]
      · rw [List.dropWhile_cons_of_pos (by simp [hverb, hquote]), ← ih, clean, if_neg hws,
          if_neg hquote]

theorem clean_cut {text : List Char} {args : List Value} (h : Cut text args) :
    clean .gap text = args.all goodValue := by
  induction h with
  | done hend =>
    rw [clean_gap, hend]
    rfl
  | @quoted text rest value tail args hquote hvalue hargs ih =>
    rw [clean_gap, hquote]
    have hopen : clean .gap ('"' :: rest) = clean .quoted rest := rfl
    rw [hopen, clean_rawQuoted hvalue, ih, List.all_cons, goodValue, String.toList_ofList]
  | @bare text rest c args hbare hc hargs ih =>
    obtain ⟨hws, hbegin⟩ := isBare_of_dropWhile hbare
    have hopen : clean .gap (c :: rest) = clean .bare rest := by
      rw [clean, if_neg (by simp [hws]), if_neg hc]
    rw [List.dropWhile_cons_of_pos hbegin, ← clean_bare] at ih
    rw [clean_gap, hbare, hopen, ih, List.all_cons, goodValue, Bool.true_and]

end Clean

section Rendering

def renderArgs (args : List Value) : List Char := args.flatMap (fun a ↦ ' ' :: a.render.toList)

theorem render_directive (d : Directive) :
    d.render.toList = d.verb.toList ++ renderArgs d.args := by
  obtain ⟨verb, args, count⟩ := d
  unfold Directive.render renderArgs
  dsimp only
  induction args generalizing verb with
  | nil => simp
  | cons a args ih => simp [ih]

def reread : Value → Value
  | .bare text => .bare text
  | .quoted text => .quoted (String.ofList (text.toList.flatMap quotedChars))

def WellFormed : Value → Prop
  | .bare text =>
    text.toList ≠ [] ∧ text.toList.head? ≠ some '"' ∧ ∀ c ∈ text.toList, isBare c = true
  | .quoted _ => True

theorem wellFormed_cut {text : List Char} {args : List Value} (h : Cut text args) :
    ∀ a ∈ args, WellFormed a := by
  induction h with
  | done => exact List.forall_mem_nil _
  | quoted hquote hvalue hargs ih => exact List.forall_mem_cons.mpr ⟨trivial, ih⟩
  | @bare text rest c args hbare hc hargs ih =>
    obtain ⟨-, hbegin⟩ := isBare_of_dropWhile hbare
    refine List.forall_mem_cons.mpr ⟨?_, ih⟩
    simp only [WellFormed, String.toList_ofList]
    refine ⟨?_, ?_, fun d hd ↦ List.mem_takeWhile_imp hd⟩
    · rw [List.takeWhile_cons_of_pos hbegin]
      exact List.cons_ne_nil _ _
    · rw [List.takeWhile_cons_of_pos hbegin]
      exact fun h ↦ hc (Option.some.inj h)

theorem escape_cons (c : Char) (text : List Char) :
    escape (c :: text) =
      (if c = '\\' then ['\\', '\\'] else if c = '"' then ['\\', '"'] else [c]) ++ escape text := by
  unfold escape
  rw [List.flatMap_cons, List.flatMap_append]
  congr 1
  split
  · rfl
  · simp

theorem rawQuoted_escape (value tail : List Char) :
    rawQuoted (escape value ++ '"' :: tail) = some (value.flatMap quotedChars, tail) := by
  induction value with
  | nil => rfl
  | cons c value ih =>
    rw [escape_cons, List.append_assoc, List.flatMap_cons]
    split
    · rename_i hc
      have hread : rawQuoted (['\\', '\\'] ++ (escape value ++ '"' :: tail)) =
          (rawQuoted (escape value ++ '"' :: tail)).map (fun x ↦ (escapedChars '\\' ++ x.1, x.2)) :=
        rfl
      rw [hread, ih, hc]
      rfl
    split
    · rename_i hc
      have hread : rawQuoted (['\\', '"'] ++ (escape value ++ '"' :: tail)) =
          (rawQuoted (escape value ++ '"' :: tail)).map (fun x ↦ (escapedChars '"' ++ x.1, x.2)) :=
        rfl
      rw [hread, ih, hc]
      rfl
    · rename_i hescape hquote
      rw [List.singleton_append, rawQuoted, ih]
      · rfl
      · exact fun h ↦ hquote h
      · exact fun h _ ↦ hescape h
      · exact fun _ _ h _ ↦ hescape h

theorem renderArgs_head (args : List Value) : ∀ c ∈ (renderArgs args).head?, c = ' ' := by
  cases args with
  | nil => intro c hc; cases hc
  | cons a args =>
    intro c hc
    exact (Option.some.inj hc).symm

theorem span_append {p : Char → Bool} {first second : List Char} (hfirst : ∀ c ∈ first, p c = true)
    (hsecond : ∀ c ∈ second.head?, p c = false) :
    (first ++ second).takeWhile p = first ∧ (first ++ second).dropWhile p = second := by
  rw [List.takeWhile_append_of_pos hfirst, List.dropWhile_append_of_pos hfirst]
  cases second with
  | nil => exact ⟨List.append_nil _, rfl⟩
  | cons c second =>
    have hc : ¬p c = true := by simp [hsecond c rfl]
    rw [List.takeWhile_cons_of_neg hc, List.dropWhile_cons_of_neg hc, List.append_nil]
    exact ⟨rfl, rfl⟩

theorem cut_renderArgs {args : List Value} (h : ∀ a ∈ args, WellFormed a) :
    Cut (renderArgs args) (args.map reread) := by
  induction args with
  | nil => exact .done rfl
  | cons a args ih =>
    obtain ⟨ha, hargs⟩ := List.forall_mem_cons.mp h
    have htext : renderArgs (a :: args) = ' ' :: (a.render.toList ++ renderArgs args) := rfl
    have hskip : isWs ' ' = true := by decide
    rw [htext]
    cases a with
    | quoted text =>
      have hrender : (Value.quoted text).render.toList ++ renderArgs args =
          '"' :: (escape text.toList ++ '"' :: renderArgs args) := by
        simp [Value.render]
      have hopen : (' ' :: ((Value.quoted text).render.toList ++ renderArgs args)).dropWhile isWs =
          '"' :: (escape text.toList ++ '"' :: renderArgs args) := by
        rw [List.dropWhile_cons_of_pos hskip, hrender]
        rfl
      exact .quoted hopen (rawQuoted_escape text.toList (renderArgs args)) (ih hargs)
    | bare text =>
      obtain ⟨hne, hquote, hbare⟩ := ha
      obtain ⟨c, rest, hcons⟩ := List.exists_cons_of_ne_nil hne
      have hhead (d : Char) (hd : d ∈ (renderArgs args).head?) : isBare d = false := by
        rw [renderArgs_head args d hd]
        decide
      obtain ⟨htake, hdrop⟩ := span_append hbare hhead
      have hws : ¬isWs c = true := by
        have hbegin : isBare c = true := hbare c (hcons ▸ List.mem_cons_self)
        rw [isBare_eq, Bool.not_eq_true'] at hbegin
        rw [hbegin]
        exact Bool.false_ne_true
      have hfirst : c ≠ '"' := by
        rw [hcons, List.head?_cons] at hquote
        exact fun h ↦ hquote (congrArg some h)
      have hopen : (' ' :: (text.toList ++ renderArgs args)).dropWhile isWs =
          c :: (rest ++ renderArgs args) := by
        rw [List.dropWhile_cons_of_pos hskip, hcons, List.cons_append,
          List.dropWhile_cons_of_neg hws]
      rw [hcons, List.cons_append] at htake hdrop
      have hcut : Cut ((c :: (rest ++ renderArgs args)).dropWhile isBare) (args.map reread) := by
        rw [hdrop]
        exact ih hargs
      have hvalue := Cut.bare hopen hfirst hcut
      rw [htake, ← hcons, String.ofList_toList] at hvalue
      exact hvalue

end Rendering

end Aldivine.Config.Rendering
