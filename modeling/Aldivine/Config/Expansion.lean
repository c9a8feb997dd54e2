import Aldivine.Config.Tokens

namespace Aldivine.Config.Expansion

open Foundation.Fallible Foundation.Pieces Foundation.Text Foundation.Utf8 Parsing Syntax Tokens

inductive Piece
  | literal (c : Char)
  | reference (name : String)
deriving DecidableEq

/-- The leftmost `$\x7b` with a `\x7d` behind it opens a reference, up to the first of these. -/
def pieces : List Char → List Piece
  | [] => []
  | c :: text =>
    if c = '$' ∧ text.head? = some '\x7b' ∧ '\x7d' ∈ text.drop 1 then
      .reference (String.ofList ((text.drop 1).takeWhile (· ≠ '\x7d'))) ::
        pieces (((text.drop 1).dropWhile (· ≠ '\x7d')).drop 1)
    else .literal c :: pieces text
termination_by text => text.length
decreasing_by
  · have hle := (List.dropWhile_sublist (l := text.drop 1) (fun c ↦ decide (c ≠ '\x7d'))).length_le
    simp only [List.length_drop, List.length_cons] at hle ⊢
    omega
  · exact Nat.lt_succ_self _

variable (environment : String → Option String) (copy : Char → List Char)

/-- A piece with the value in place of the reference, where the variable is set. -/
def Piece.read : Piece → Option (List Char)
  | .literal c => some (copy c)
  | .reference name => (environment name).map String.toList

/-- The text with the values in place of the references and all other characters as they are, if
every variable is set. -/
def substitute (text : List Char) : Option (List Char) :=
  ((pieces text).mapM (Piece.read environment ([·]))).map List.flatten

variable {environment copy} {line : BitVec 32} {text out : List Char}

section Bytes

theorem mem_brace {c : Char} : 125 ∈ String.utf8EncodeChar c ↔ c = '\x7d' :=
  mem_encodeChar (by decide : '\x7d'.toNat < 128)

theorem mem_encode : 125 ∈ encode text ↔ '\x7d' ∈ text := by
  rw [encode, List.mem_flatMap]
  constructor
  · rintro ⟨c, hc, hbyte⟩
    rwa [← mem_brace.mp hbyte]
  · intro h
    exact ⟨_, h, mem_brace.mpr rfl⟩

theorem head_encode : (encode text).head? = some 123 ↔ text.head? = some '\x7b' := by
  cases text with
  | nil => exact iff_of_false nofun nofun
  | cons c text =>
    have hbrace : 123 ∈ String.utf8EncodeChar c ↔ c = '\x7b' :=
      mem_encodeChar (by decide : '\x7b'.toNat < 128)
    rw [encode_cons, List.head?_cons, Option.some.injEq, ← hbrace]
    obtain ⟨b, bytes, hb⟩ := List.exists_cons_of_ne_nil (@String.utf8EncodeChar_ne_nil c)
    constructor
    · intro h
      rw [hb, List.cons_append, List.head?_cons, Option.some.injEq] at h
      rw [hb, h]
      exact List.mem_cons_self
    · intro h
      rw [hbrace.mp h]
      rfl

theorem onChar_brace : onChar (fun b ↦ decide (b ≠ 125)) true = fun c ↦ decide (c ≠ '\x7d') := by
  funext c
  unfold onChar
  split
  · rename_i hc
    exact decide_eq_decide.mpr (not_congr (ofNat_eq_iff hc (by decide : '\x7d'.toNat < 128)))
  · rename_i hc
    exact (decide_eq_true (char_ne_of_high hc (by decide))).symm

theorem high_ne_brace (b : UInt8) (hb : 128 ≤ b.toNat) : decide (b ≠ 125) = true :=
  decide_eq_true (byte_ne_of_high hb (by decide))

theorem expandBytes_high {bytes rest : List UInt8} (h : ∀ b ∈ bytes, 128 ≤ b.toNat) :
    expandBytes environment line out (bytes ++ rest) =
      expandBytes environment line (out ++ bytes.map asChar) rest := by
  induction bytes generalizing out with
  | nil => rw [List.map_nil, List.append_nil, List.nil_append]
  | cons b bytes ih =>
    obtain ⟨hb, hbytes⟩ := List.forall_mem_cons.mp h
    rw [List.cons_append, expandBytes, if_neg fun hopen ↦ byte_ne_of_high hb (by decide) hopen.1,
      ih hbytes, List.map_cons, List.append_assoc, List.singleton_append]

theorem mapM_cons_eq {α β : Type} {f : α → Option β} {a : α} {l : List α} {b : β} (h : f a = some b) :
    (a :: l).mapM f = (l.mapM f).map (b :: ·) := by
  rw [List.mapM_cons, h]
  cases l.mapM f with
  | none => rfl
  | some bs => rfl

/-- The bytes open a reference where the characters do. -/
theorem opens_iff {c : Char} (hc : c.toNat < 128) :
    UInt8.ofNat c.toNat = 36 ∧ (encode text).head? = some 123 ∧ 125 ∈ (encode text).drop 1 ↔
      c = '$' ∧ text.head? = some '\x7b' ∧ '\x7d' ∈ text.drop 1 := by
  refine and_congr (ofNat_eq_iff hc (by decide : '$'.toNat < 128)) ?_
  rw [head_encode]
  refine and_congr_right fun hhead ↦ ?_
  cases text with
  | nil => cases hhead
  | cons d text =>
    cases hhead
    exact mem_encode

theorem takeWhile_name (text : List Char) :
    fromUtf8Lossy ((encode text).takeWhile (· ≠ 125)) =
      String.ofList (text.takeWhile (· ≠ '\x7d')) := by
  rw [takeWhile_encode high_ne_brace, onChar_brace, fromUtf8Lossy_encode]

theorem dropWhile_name (h : '\x7d' ∈ text) :
    ((encode text).dropWhile (· ≠ 125)).drop 1 =
      encode ((text.dropWhile (· ≠ '\x7d')).drop 1) := by
  rw [dropWhile_encode high_ne_brace, onChar_brace]
  cases hrest : text.dropWhile (fun c ↦ decide (c ≠ '\x7d')) with
  | nil => exact absurd (List.dropWhile_eq_nil_iff.mp hrest _ h) (by decide)
  | cons d rest =>
    have hd := List.head?_dropWhile_not (fun c ↦ decide (c ≠ '\x7d')) text
    rw [hrest] at hd
    obtain rfl : d = '\x7d' := by simpa using hd
    rfl

/-- What the loop returns: its copies of the pieces, behind one another. -/
theorem expandBytes_encode :
    (expandBytes environment line out (encode text)).toOption =
      ((pieces text).mapM (Piece.read environment quotedChars)).map (fun parts ↦ out ++ parts.flatten) := by
  fun_induction pieces text generalizing out with
  | case1 =>
    rw [encode_nil, expandBytes, List.mapM_nil]
    simp [Except.toOption]
  | case2 c text hopen ih =>
    obtain ⟨rfl, hhead, hmem⟩ := hopen
    obtain ⟨rest, rfl⟩ : ∃ rest, text = '\x7b' :: rest := by
      cases text with
      | nil => cases hhead
      | cons d rest => exact ⟨rest, by rw [Option.some.inj hhead]⟩
    have hbytes : encode ('$' :: '\x7b' :: rest) = 36 :: 123 :: encode rest := rfl
    rw [hbytes, expandBytes, if_pos ⟨rfl, rfl, mem_encode.mpr hmem⟩]
    have hdropBytes : (123 :: encode rest).drop 1 = encode rest := rfl
    have hdrop : ('\x7b' :: rest).drop 1 = rest := rfl
    rw [hdrop] at hmem ih ⊢
    rw [hdropBytes, takeWhile_name, dropWhile_name hmem]
    dsimp only
    cases hname : environment (String.ofList (rest.takeWhile (· ≠ '\x7d'))) with
    | none =>
      have hnone : Piece.read environment quotedChars
          (.reference (String.ofList (rest.takeWhile (· ≠ '\x7d')))) = none := by
        rw [Piece.read, hname]
        rfl
      rw [List.mapM_cons, hnone]
      rfl
    | some value =>
      have hsome : Piece.read environment quotedChars
          (.reference (String.ofList (rest.takeWhile (· ≠ '\x7d')))) = some value.toList := by
        rw [Piece.read, hname]
        rfl
      rw [mapM_cons_eq hsome, Option.map_map]
      dsimp only
      rw [ih]
      simp only [Function.comp_def, List.flatten_cons, List.append_assoc]
  | case3 c text hopen ih =>
    have hcopy : Piece.read environment quotedChars (.literal c) = some (quotedChars c) := rfl
    rw [mapM_cons_eq hcopy, Option.map_map, encode_cons]
    have hstep : expandBytes environment line out (String.utf8EncodeChar c ++ encode text) =
        expandBytes environment line (out ++ quotedChars c) (encode text) := by
      by_cases hc : c.toNat < 128
      · rw [quotedChars, encodeChar_ascii hc, List.singleton_append, expandBytes,
          if_neg fun h ↦ hopen ((opens_iff hc).mp h)]
        rfl
      · exact expandBytes_high (encodeChar_high (Nat.le_of_not_lt hc)).1
    rw [hstep, ih]
    simp only [Function.comp_def, List.flatten_cons, List.append_assoc]

end Bytes

section Substitution

def AllSet (environment : String → Option String) (text : List Char) : Prop :=
  ∀ name, .reference name ∈ pieces text → (environment name).isSome

theorem mapM_of_some {α β : Type} {f : α → Option β} {g : α → β} {l : List α}
    (h : ∀ a ∈ l, f a = some (g a)) : l.mapM f = some (l.map g) := by
  induction l with
  | nil => rfl
  | cons a l ih =>
    obtain ⟨ha, hl⟩ := List.forall_mem_cons.mp h
    rw [mapM_cons_eq ha, ih hl]
    rfl

theorem mapM_eq_none {α β : Type} {f : α → Option β} {l : List α} {a : α} (ha : a ∈ l)
    (h : f a = none) : l.mapM f = none := by
  induction l with
  | nil => cases ha
  | cons b l ih =>
    rw [List.mapM_cons]
    rcases List.mem_cons.mp ha with rfl | ha
    · rw [h]
      rfl
    · rw [ih ha]
      cases f b <;> rfl

def Piece.chars (environment : String → Option String) (copy : Char → List Char) (p : Piece) :
    List Char :=
  (p.read environment copy).getD []

theorem read_allSet (h : AllSet environment text) :
    ((pieces text).mapM (Piece.read environment copy)).map List.flatten =
      some ((pieces text).flatMap (Piece.chars environment copy)) := by
  have hread : ∀ p ∈ pieces text,
      p.read environment copy = some (p.chars environment copy) := by
    intro p hp
    cases p with
    | literal c => rfl
    | reference name =>
      obtain ⟨value, hvalue⟩ := Option.isSome_iff_exists.mp (h name hp)
      rw [Piece.chars, Piece.read, hvalue]
      rfl
  rw [mapM_of_some hread, Option.map_some, List.flatMap_def]

theorem read_unset (h : ¬AllSet environment text) :
    (pieces text).mapM (Piece.read environment copy) = none := by
  unfold AllSet at h
  push Not at h
  obtain ⟨name, hname, hunset⟩ := h
  refine mapM_eq_none hname ?_
  have hnone : environment name = none := by simpa using hunset
  rw [Piece.read, hnone]
  rfl

/-- The substitution fails exactly where a variable is not set. -/
theorem substitute_eq_none_iff (environment : String → Option String) (text : List Char) :
    substitute environment text = none ↔ ¬AllSet environment text := by
  constructor
  · intro hnone h
    rw [substitute, read_allSet h] at hnone
    cases hnone
  · intro h
    rw [substitute, read_unset h]
    rfl

def Plain (text : List Char) : Prop := ∀ c, .literal c ∈ pieces text → c.toNat < 128

theorem length_chars_le (p : Piece) :
    (p.chars environment ([·])).length ≤ (p.chars environment quotedChars).length := by
  cases p with
  | literal c =>
    change 1 ≤ ((String.utf8EncodeChar c).map asChar).length
    rw [List.length_map]
    exact List.length_pos_iff.mpr String.utf8EncodeChar_ne_nil
  | reference name => exact Nat.le_refl _

theorem chars_eq_iff :
    (pieces text).flatMap (Piece.chars environment quotedChars) =
        (pieces text).flatMap (Piece.chars environment ([·])) ↔
      Plain text := by
  constructor
  · intro heq c hc
    have hlen := length_eq_of_flatMap (fun p _ ↦ length_chars_le p) (congrArg List.length heq.symm)
      (.literal c) hc
    change 1 = ((String.utf8EncodeChar c).map asChar).length at hlen
    rw [List.length_map] at hlen
    by_contra hhigh
    have hmany := (encodeChar_high (Nat.le_of_not_lt hhigh)).2
    omega
  · intro hplain
    refine List.flatMap_congr fun p hp ↦ ?_
    cases p with
    | literal c =>
      change (String.utf8EncodeChar c).map asChar = [c]
      rw [encodeChar_ascii (hplain c hp), List.map_singleton, asChar_ofNat (hplain c hp)]
    | reference name => rfl

theorem expandBytes_iff :
    (expandBytes environment line [] (encode text)).toOption = substitute environment text ↔
      (AllSet environment text → Plain text) := by
  rw [expandBytes_encode]
  simp only [List.nil_append]
  change ((pieces text).mapM (Piece.read environment quotedChars)).map List.flatten = _ ↔ _
  by_cases h : AllSet environment text
  · rw [substitute, read_allSet h, read_allSet h, Option.some.injEq, chars_eq_iff]
    exact ⟨fun hplain _ ↦ hplain, fun hplain ↦ hplain h⟩
  · rw [substitute, read_unset h, read_unset h]
    exact iff_of_true rfl fun hall ↦ absurd hall h

theorem pieces_closed (h : ¬['$', '\x7b'] <:+: text) : pieces text = text.map .literal := by
  fun_induction pieces text with
  | case1 => rfl
  | case2 c text hopen ih =>
    obtain ⟨rfl, hhead, -⟩ := hopen
    cases text with
    | nil => cases hhead
    | cons d rest =>
      cases hhead
      exact absurd (List.prefix_append ['$', '\x7b'] rest).isInfix h
  | case3 c text hopen ih =>
    rw [ih fun hin ↦ h (List.infix_cons hin), List.map_cons]

theorem substitute_closed (h : ¬['$', '\x7b'] <:+: text) :
    substitute environment text = some text := by
  have hall : AllSet environment text := by
    intro name hname
    rw [pieces_closed h] at hname
    obtain ⟨c, -, ⟨⟩⟩ := List.mem_map.mp hname
  rw [substitute, read_allSet hall, pieces_closed h, List.flatMap_map]
  exact congrArg some (List.flatMap_singleton' text)

/-- With expansion enabled, the result is that of the substitution where nothing is opened, where it
fails, and where all that is copied is ASCII. -/
theorem expandEnv_iff (environment : String → Option String) (strictVerbs : Bool)
    (line : BitVec 32) (text : String) :
    (expandEnv environment ⟨.enabled, strictVerbs⟩ line text).toOption =
        (substitute environment text.toList).map String.ofList ↔
      ¬['$', '\x7b'] <:+: text.toList ∨ ¬AllSet environment text.toList ∨ Plain text.toList := by
  unfold expandEnv
  by_cases h : ['$', '\x7b'] <:+: text.toList
  · have hinjective : Function.Injective (Option.map String.ofList) :=
      Option.map_injective fun _ _ ↦ String.ofList_inj.mp
    rw [if_neg (by simpa using h), utf8_eq_encode, toOption_map, hinjective.eq_iff, expandBytes_iff,
      or_iff_right (not_not.mpr h), imp_iff_not_or]
  · rw [if_pos (.inr h), substitute_closed h]
    refine iff_of_true ?_ (.inl h)
    rw [Option.map_some, String.ofList_toList]
    rfl

/-- One variable set, and one character outside ASCII in front of the reference to it. -/
theorem accent_mangled :
    expandEnv (fun _ ↦ some "x") ⟨.enabled, false⟩ 1 "\u00e9$\x7bA\x7d" = .ok "\u00c3\u00a9x" ∧
      substitute (fun _ ↦ some "x") "\u00e9$\x7bA\x7d".toList = some "\u00e9x".toList := by
  have hpieces : pieces "\u00e9$\x7bA\x7d".toList = [.literal '\u00e9', .reference "A"] := by
    simp [pieces]
  refine ⟨toOption_eq_some.mp ?_, ?_⟩
  · rw [expandEnv, if_neg (by decide), utf8_eq_encode, toOption_map, expandBytes_encode, hpieces]
    decide
  · rw [substitute, hpieces]
    decide

end Substitution

end Aldivine.Config.Expansion
