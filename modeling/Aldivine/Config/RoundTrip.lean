import Aldivine.Config.Rendering

namespace Aldivine.Config.RoundTrip

open Foundation.Fallible Foundation.Pieces Foundation.Text Foundation.Utf8 Parsing Rendering
open Syntax Tokens

section Lines

/-- The kind of a line, without its indent and its trailing carriage returns. -/
inductive Reads : List Char → LineKind → Prop
  | blank : Reads [] .blank
  | comment {body : List Char} (hcomment : isComment body = true) :
      Reads body (.comment (String.ofList body))
  | directive {body : List Char} {args : List Value} (hcomment : isComment body = false)
      (hverb : body.takeWhile isVerb ≠ []) (hargs : Cut (body.dropWhile isVerb) args) :
      Reads body (.directive ⟨String.ofList (body.takeWhile isVerb), args, args.length⟩)

variable {environment : String → Option String} {lineNo : BitVec 32}

theorem isWhitespace_of_isWs {c : Char} (h : isWs c = true) : isWhitespace c = true := by
  unfold isWs onChar at h
  split at h
  · rename_i hc
    have hbyte : (UInt8.ofNat c.toNat).toNat = c.toNat := by
      rw [UInt8.toNat_ofNat', Nat.mod_eq_of_lt (by omega)]
    simp only [isAsciiWhitespace, Bool.or_eq_true, beq_iff_eq, ← UInt8.toNat_inj, hbyte] at h
    simp only [isWhitespace, Bool.or_eq_true, Bool.and_eq_true, decide_eq_true_eq, beq_iff_eq]
    simp only [UInt8.reduceToNat] at h
    omega
  · cases h

theorem trimCr_initial (text : List Char) : trimCr text <+: text := by
  rw [trimCr, ← List.reverse_suffix, List.reverse_reverse]
  exact List.dropWhile_suffix _

theorem trimCr_eq_self {text : List Char} (h : ∀ c ∈ text.getLast?, c ≠ '\r') :
    trimCr text = text := by
  rw [← List.head?_reverse] at h
  rw [trimCr]
  cases hreverse : text.reverse with
  | nil => rw [List.dropWhile_nil, ← hreverse, List.reverse_reverse]
  | cons c rest =>
    rw [hreverse] at h
    have hlast : c ≠ '\r' := h c rfl
    rw [List.dropWhile_cons_of_neg (by simpa using hlast), ← hreverse, List.reverse_reverse]

theorem getLast_trimCr (text : List Char) : ∀ c ∈ (trimCr text).getLast?, c ≠ '\r' := by
  intro c hc
  rw [trimCr, List.getLast?_reverse] at hc
  have hhead := List.head?_dropWhile_not (fun c ↦ decide (c = '\r')) text.reverse
  rw [Option.mem_def.mp hc] at hhead
  simpa using hhead

theorem body_head (raw : List Char) :
    ∀ c ∈ (trimCr (raw.dropWhile isWhitespace)).head?, isWhitespace c = false := by
  intro c hc
  obtain ⟨cut, hcut⟩ := trimCr_initial (raw.dropWhile isWhitespace)
  have hhead := List.head?_dropWhile_not isWhitespace raw
  rw [← hcut, List.head?_append, Option.mem_def.mp hc, Option.some_or] at hhead
  simpa using hhead

theorem skip_body {body : List Char} (h : ∀ c ∈ body.head?, isWhitespace c = false) :
    body.dropWhile isWs = body := by
  cases body with
  | nil => rfl
  | cons c body =>
    have hws : ¬isWs c = true := by
      intro hc
      have hfirst := h c rfl
      rw [isWhitespace_of_isWs hc] at hfirst
      cases hfirst
    exact List.dropWhile_cons_of_neg hws

theorem nextBare_body {body : List Char} (hne : body ≠ [])
    (h : ∀ c ∈ body.head?, isWhitespace c = false) :
    nextBare lineNo (encode body) =
      if body.takeWhile isVerb = [] then
        .error (.invalidValue lineNo "directive verb must be an unquoted token")
      else .ok (some (String.ofList (body.takeWhile isVerb), encode (body.dropWhile isVerb))) := by
  rw [nextBare, skipWs_encode, skip_body h]
  dsimp only
  rw [if_neg (encode_eq_nil.not.mpr hne), takeWhile_encode (fun _ ↦ isVerbByte_high),
    dropWhile_encode (fun _ ↦ isVerbByte_high), fromUtf8Lossy_encode]
  exact if_congr encode_eq_nil rfl rfl

theorem parseLine_eq_ok {raw : List Char} {line : Line} :
    parseLine environment ⟨.disabled, false⟩ lineNo raw = .ok line ↔
      ∃ kind, Reads (trimCr (raw.dropWhile isWhitespace)) kind ∧
        line = ⟨lineNo, String.ofList (raw.takeWhile isWhitespace), kind⟩ := by
  have hhead := body_head raw
  unfold parseLine
  dsimp only
  generalize trimCr (raw.dropWhile isWhitespace) = body at hhead ⊢
  generalize String.ofList (raw.takeWhile isWhitespace) = indent
  split
  · rename_i hnil
    subst hnil
    constructor
    · intro h
      cases h
      exact ⟨.blank, .blank, rfl⟩
    · intro h
      obtain ⟨kind, hkind, rfl⟩ := h
      cases hkind with
      | blank => rfl
      | comment hcomment => cases hcomment
      | directive _ hverb _ => exact absurd rfl hverb
  rename_i hne
  split
  · rename_i hcomment
    constructor
    · intro h
      cases h
      exact ⟨_, .comment hcomment, rfl⟩
    · intro h
      obtain ⟨kind, hkind, rfl⟩ := h
      cases hkind with
      | blank => exact absurd rfl hne
      | comment => rfl
      | directive hnot _ _ =>
        rw [hcomment] at hnot
        cases hnot
  rename_i hcomment
  rw [Bool.not_eq_true] at hcomment
  rw [utf8_ofList, nextBare_body hne hhead]
  split
  · rename_i hverb
    refine iff_of_false nofun (fun h ↦ ?_)
    obtain ⟨kind, hkind, -⟩ := h
    cases hkind with
    | blank => exact hne rfl
    | comment hyes =>
      rw [hcomment] at hyes
      cases hyes
    | directive _ hfirst _ => exact hfirst hverb
  · rename_i hverb
    -- the verb is read and, as verbs are not checked, only the arguments can fail
    show (readArgs environment ⟨.disabled, false⟩ lineNo (encode body).length
      (encode (body.dropWhile isVerb)) >>= fun args ↦ pure (⟨lineNo, indent,
        .directive ⟨String.ofList (body.takeWhile isVerb), args, args.length⟩⟩ : Line)) = _ ↔ _
    constructor
    · intro h
      obtain ⟨args, hargs, h⟩ := bind_eq_ok.mp h
      cases h
      exact ⟨_, .directive hcomment hverb (readArgs_encode.mp hargs), rfl⟩
    · intro h
      obtain ⟨kind, hkind, rfl⟩ := h
      cases hkind with
      | blank => exact absurd rfl hne
      | comment hyes =>
        rw [hcomment] at hyes
        cases hyes
      | directive _ _ hargs => exact bind_eq_ok.mpr ⟨_, readArgs_encode.mpr hargs, rfl⟩

end Lines

section Again

def rereadKind : LineKind → LineKind
  | .comment text => .comment text
  | .blank => .blank
  | .directive d => .directive { d with args := d.args.map reread }

def goodKind : LineKind → Bool
  | .comment _ => true
  | .blank => true
  | .directive d => d.args.all goodValue

variable {body : List Char} {kind : LineKind}

theorem Reads.clean_eq (h : Reads body kind) :
    (isComment body || clean .verb body) = goodKind kind := by
  cases h with
  | blank => rfl
  | comment hcomment => rw [hcomment, Bool.true_or, goodKind]
  | directive hcomment hverb hargs =>
    rw [hcomment, Bool.false_or, clean_verb, clean_cut hargs, goodKind]

theorem Reads.head_eq (h : Reads body kind) : kind.render.toList.head? = body.head? := by
  cases h with
  | blank => rfl
  | comment => rw [LineKind.render, String.toList_ofList]
  | @directive body args hcomment hverb hargs =>
    rw [LineKind.render, render_directive, String.toList_ofList]
    obtain ⟨c, verb, hcons⟩ := List.exists_cons_of_ne_nil hverb
    have hhead : body.head? = some c := by
      rw [← @List.takeWhile_append_dropWhile _ isVerb body, hcons]
      rfl
    rw [hcons, hhead]
    rfl

theorem getLast_append {first second : List Char} (hfirst : ∀ c ∈ first.getLast?, c ≠ '\r')
    (hsecond : ∀ c ∈ second.getLast?, c ≠ '\r') : ∀ c ∈ (first ++ second).getLast?, c ≠ '\r' := by
  intro c hc
  rw [List.getLast?_append, Option.mem_def, Option.or_eq_some_iff] at hc
  rcases hc with hc | ⟨-, hc⟩
  · exact hsecond c hc
  · exact hfirst c hc

theorem getLast_renderArgs {args : List Value} (h : ∀ a ∈ args, WellFormed a) :
    ∀ c ∈ (renderArgs args).getLast?, c ≠ '\r' := by
  induction args with
  | nil => exact fun c hc ↦ absurd hc (Option.not_mem_none c)
  | cons a args ih =>
    obtain ⟨ha, hargs⟩ := List.forall_mem_cons.mp h
    have htext : renderArgs (a :: args) = ([' '] ++ a.render.toList) ++ renderArgs args := rfl
    have hspace (c : Char) (hc : c ∈ [' '].getLast?) : c ≠ '\r' := by
      cases hc
      decide
    rw [htext]
    refine getLast_append (getLast_append hspace ?_) (ih hargs)
    cases a with
    | bare text =>
      intro c hc heq
      have hbare := ha.2.2 c (List.mem_of_getLast? hc)
      rw [heq] at hbare
      exact absurd hbare (by decide)
    | quoted text =>
      have hrender : (Value.quoted text).render.toList = '"' :: escape text.toList ++ ['"'] := by
        simp [Value.render]
      rw [hrender]
      intro c hc
      rw [List.getLast?_concat] at hc
      cases hc
      decide

theorem Reads.getLast (h : Reads body kind) (hbody : ∀ c ∈ body.getLast?, c ≠ '\r') :
    ∀ c ∈ kind.render.toList.getLast?, c ≠ '\r' := by
  cases h with
  | blank => exact hbody
  | comment =>
    rw [LineKind.render, String.toList_ofList]
    exact hbody
  | directive hcomment hverb hargs =>
    rw [LineKind.render, render_directive, String.toList_ofList]
    refine getLast_append (fun c hc heq ↦ ?_) (getLast_renderArgs (wellFormed_cut hargs))
    have hin := List.mem_takeWhile_imp (List.mem_of_getLast? hc)
    rw [heq] at hin
    exact absurd hin (by decide)

theorem isComment_append {first second : List Char} (hfirst : first ≠ [])
    (hsecond : ∀ c ∈ second.head?, c ≠ '/') : isComment (first ++ second) = isComment first := by
  obtain ⟨c, first, rfl⟩ := List.exists_cons_of_ne_nil hfirst
  cases first with
  | cons d first => simp [isComment, List.isPrefixOf]
  | nil =>
    cases second with
    | nil => rfl
    | cons d second =>
      have hd : d ≠ '/' := hsecond d rfl
      simp [isComment, List.isPrefixOf, hd.symm]

theorem Reads.again (h : Reads body kind) : Reads kind.render.toList (rereadKind kind) := by
  cases h with
  | blank => exact .blank
  | comment hcomment =>
    rw [LineKind.render, String.toList_ofList]
    exact .comment hcomment
  | @directive body args hcomment hverb hargs =>
    rw [LineKind.render, render_directive, String.toList_ofList]
    have hspace (c : Char) (hc : c ∈ (renderArgs args).head?) : isVerb c = false := by
      rw [renderArgs_head args c hc]
      decide
    obtain ⟨htake, hdrop⟩ := span_append (fun c hc ↦ List.mem_takeWhile_imp hc) hspace
    have hsame : isComment (body.takeWhile isVerb ++ renderArgs args) = isComment body := by
      have hend (c : Char) (hc : c ∈ (body.dropWhile isVerb).head?) : c ≠ '/' := by
        intro heq
        have hnot := List.head?_dropWhile_not isVerb body
        rw [Option.mem_def.mp hc, heq] at hnot
        exact absurd hnot (by decide)
      have hbody := isComment_append hverb hend
      rw [List.takeWhile_append_dropWhile] at hbody
      rw [hbody, isComment_append hverb]
      intro c hc
      rw [renderArgs_head args c hc]
      decide
    have hagain := Reads.directive (hsame.trans hcomment) (by rwa [htake])
      (hdrop ▸ cut_renderArgs (wellFormed_cut hargs))
    rw [htake, List.length_map] at hagain
    exact hagain

theorem newline_mem_escape (text : List Char) : '\n' ∈ escape text ↔ '\n' ∈ text := by
  induction text with
  | nil => rfl
  | cons c text ih =>
    rw [escape_cons, List.mem_append, ih, List.mem_cons]
    refine or_congr_left ?_
    split
    · rename_i hc
      rw [hc]
      decide
    split
    · rename_i hc
      rw [hc]
      decide
    · rw [List.mem_singleton]

theorem goodValue_iff {value : Value} (h : WellFormed value) :
    goodValue value = true ↔ '\n' ∉ value.render.toList ∧ reread value = value := by
  cases value with
  | bare text =>
    refine iff_of_true rfl ⟨fun hmem ↦ ?_, rfl⟩
    exact absurd (h.2.2 _ hmem) (by decide)
  | quoted text =>
    have hrender : (Value.quoted text).render.toList = '"' :: (escape text.toList ++ ['"']) := by
      simp [Value.render]
    have hreread : reread (.quoted text) = .quoted text ↔ ∀ c ∈ text.toList, c.toNat < 128 := by
      have hchars : text.toList.flatMap quotedChars = (encode text.toList).map asChar :=
        (List.map_flatMap ..).symm
      rw [reread, hchars, Value.quoted.injEq, ← asChar_encode_iff]
      constructor
      · intro h
        rw [← String.toList_inj, String.toList_ofList] at h
        exact h
      · intro h
        rw [h, String.ofList_toList]
    have hnewline : '\n' ∉ (Value.quoted text).render.toList ↔ '\n' ∉ text.toList := by
      have hquote : '\n' ≠ '"' := by decide
      rw [hrender, List.mem_cons, List.mem_append, List.mem_singleton, newline_mem_escape,
        or_iff_right hquote, or_iff_left hquote]
    rw [hreread, hnewline, goodValue, List.all_eq_true]
    constructor
    · intro h
      refine ⟨fun hmem ↦ absurd (h _ hmem) (by decide), fun c hc ↦ ?_⟩
      exact of_decide_eq_true ((Bool.and_eq_true_iff.mp (h c hc)).1)
    · intro h c hc
      obtain ⟨hne, hascii⟩ := h
      rw [plain, decide_eq_true (hascii c hc), Bool.true_and, bne_iff_ne]
      exact fun heq ↦ hne (heq ▸ hc)

theorem goodArgs_iff {args : List Value} (h : ∀ a ∈ args, WellFormed a) :
    args.all goodValue = true ↔ '\n' ∉ renderArgs args ∧ args.map reread = args := by
  induction args with
  | nil => exact iff_of_true rfl ⟨List.not_mem_nil, rfl⟩
  | cons a args ih =>
    obtain ⟨ha, hargs⟩ := List.forall_mem_cons.mp h
    have htext : renderArgs (a :: args) = ' ' :: (a.render.toList ++ renderArgs args) := rfl
    have hspace : '\n' ≠ ' ' := by decide
    rw [List.all_cons, Bool.and_eq_true_iff, goodValue_iff ha, ih hargs, htext, List.mem_cons,
      or_iff_right hspace, List.mem_append, not_or, List.map_cons, List.cons.injEq]
    exact and_and_and_comm

theorem Reads.good_iff (h : Reads body kind) (hbody : '\n' ∉ body) :
    goodKind kind = true ↔ '\n' ∉ kind.render.toList ∧ rereadKind kind = kind := by
  cases h with
  | blank => exact iff_of_true rfl ⟨hbody, rfl⟩
  | comment =>
    rw [LineKind.render, String.toList_ofList]
    exact iff_of_true rfl ⟨hbody, rfl⟩
  | @directive body args hcomment hverb hargs =>
    have hline : '\n' ∉ body.takeWhile isVerb :=
      fun hmem ↦ hbody ((List.takeWhile_sublist _).subset hmem)
    rw [LineKind.render, render_directive, String.toList_ofList, List.mem_append,
      or_iff_right hline, goodKind, goodArgs_iff (wellFormed_cut hargs), rereadKind,
      LineKind.directive.injEq, Directive.mk.injEq]
    simp only [true_and, and_true]

variable {environment : String → Option String} {lineNo : BitVec 32} {raw : List Char} {line : Line}

def content (line : Line) : List Char := line.indent.toList ++ line.kind.render.toList

def rereadLine (line : Line) : Line := { line with kind := rereadKind line.kind }

theorem parseLine_content
    (h : parseLine environment ⟨.disabled, false⟩ lineNo raw = .ok line) :
    parseLine environment ⟨.disabled, false⟩ lineNo (content line) = .ok (rereadLine line) := by
  obtain ⟨kind, hkind, rfl⟩ := parseLine_eq_ok.mp h
  have hhead (c : Char) (hc : c ∈ kind.render.toList.head?) : isWhitespace c = false := by
    rw [hkind.head_eq] at hc
    exact body_head raw c hc
  obtain ⟨htake, hdrop⟩ := @span_append isWhitespace (raw.takeWhile isWhitespace) _
    (fun c hc ↦ List.mem_takeWhile_imp hc) hhead
  have hagain : Reads (trimCr kind.render.toList) (rereadKind kind) := by
    rw [trimCr_eq_self (hkind.getLast (getLast_trimCr _))]
    exact hkind.again
  refine parseLine_eq_ok.mpr ⟨rereadKind kind, ?_, ?_⟩
  · rw [content, String.toList_ofList, hdrop]
    exact hagain
  · rw [content, String.toList_ofList, htake]
    rfl

theorem cleanLine_iff (h : parseLine environment ⟨.disabled, false⟩ lineNo raw = .ok line)
    (hraw : '\n' ∉ raw) :
    cleanLine raw = true ↔ '\n' ∉ content line ∧ rereadLine line = line := by
  obtain ⟨kind, hkind, rfl⟩ := parseLine_eq_ok.mp h
  have hindent : '\n' ∉ raw.takeWhile isWhitespace :=
    fun hmem ↦ hraw ((List.takeWhile_sublist _).subset hmem)
  have hbody : '\n' ∉ trimCr (raw.dropWhile isWhitespace) :=
    fun hmem ↦ hraw ((List.dropWhile_sublist _).subset ((trimCr_initial _).subset hmem))
  have hclean : cleanLine raw = goodKind kind := hkind.clean_eq
  rw [hclean, hkind.good_iff hbody, content, String.toList_ofList, List.mem_append,
    or_iff_right hindent, rereadLine, Line.mk.injEq]
  simp only [true_and]

end Again

section Documents

theorem newline_not_mem_segments {text part : List Char} (h : part ∈ segments text) :
    '\n' ∉ part := by
  rcases segments_eq text with heq | ⟨k, -, heq⟩
  · rw [heq, List.mem_singleton] at h
    rw [h]
    exact List.not_mem_nil
  · rw [heq] at h
    exact not_mem_of_mem_splitOn (List.mem_of_mem_take h)

theorem segments_lines {parts : List (List Char)} (h : parts ≠ []) :
    segments (parts.flatMap (· ++ ['\n'])) = parts.flatMap (List.splitOn '\n') := by
  have hpos : 0 < (parts.flatMap (List.splitOn '\n')).length := by
    obtain ⟨part, parts, rfl⟩ := List.exists_cons_of_ne_nil h
    rw [List.flatMap_cons, List.length_append]
    exact Nat.add_pos_left (List.length_pos_iff.mpr (List.splitOn_ne_nil _ _)) _
  have hlast : (parts.flatMap (List.splitOn '\n')).length + 1 > 1 ∧
      some ([] : List Char) = some [] :=
    ⟨Nat.lt_add_of_pos_left hpos, rfl⟩
  unfold segments
  dsimp only
  rw [splitOn_terminated, List.length_append, List.length_singleton, List.getLast?_concat,
    if_pos hlast, Nat.add_sub_cancel, if_neg hpos.ne', List.take_left]

theorem render_document (doc : Document) :
    doc.render.toList = (doc.lines.map content).flatMap (· ++ ['\n']) := by
  have hfold (lines : List Line) (out : String) :
      (lines.foldl (fun out l ↦ out ++ l.render) out).toList =
        out.toList ++ (lines.map content).flatMap (· ++ ['\n']) := by
    induction lines generalizing out with
    | nil => simp
    | cons line lines ih =>
      rw [List.foldl_cons, ih]
      simp [Line.render, content]
  exact hfold doc.lines ""

variable {environment : String → Option String} {source text : String} {doc : Document}

def ReadsLines (environment : String → Option String) (k : ℕ) (segs : List (List Char))
    (lines : List Line) : Prop :=
  List.Forall₂ (fun x line ↦
    parseLine environment ⟨.disabled, false⟩ (BitVec.ofNat 32 x.2 + 1) x.1 = .ok line)
    (segs.zipIdx k) lines

theorem parseDocument_eq_ok :
    parseDocument environment ⟨.disabled, false⟩ source text = .ok doc ↔
      ReadsLines environment 0 (segments text.toList) doc.lines ∧ doc.source = source := by
  rw [parseDocument, bind_eq_ok]
  constructor
  · intro h
    obtain ⟨lines, hlines, ⟨⟩⟩ := h
    exact ⟨mapM_eq_ok.mp hlines, rfl⟩
  · intro h
    obtain ⟨hlines, rfl⟩ := h
    exact ⟨doc.lines, mapM_eq_ok.mpr hlines, rfl⟩

theorem ReadsLines.length_eq {k : ℕ} {segs : List (List Char)} {lines : List Line}
    (h : ReadsLines environment k segs lines) : segs.length = lines.length := by
  have hlen := List.Forall₂.length_eq h
  rwa [List.length_zipIdx] at hlen

theorem ReadsLines.ne_nil {k : ℕ} {text : List Char} {lines : List Line}
    (h : ReadsLines environment k (segments text) lines) : lines.map content ≠ [] := by
  rw [← List.length_pos_iff, List.length_map, ← h.length_eq, List.length_pos_iff]
  exact segments_ne_nil text

theorem ReadsLines.again {k : ℕ} {segs : List (List Char)} {lines : List Line}
    (h : ReadsLines environment k segs lines) :
    ReadsLines environment k (lines.map content) (lines.map rereadLine) := by
  induction lines generalizing segs k with
  | nil => exact .nil
  | cons line lines ih =>
    cases segs with
    | nil => cases h
    | cons raw segs =>
      obtain ⟨hline, hlines⟩ := List.forall₂_cons.mp h
      exact .cons (parseLine_content hline) (ih hlines)

theorem ReadsLines.clean_iff {k : ℕ} {segs : List (List Char)} {lines : List Line}
    (h : ReadsLines environment k segs lines) (hsegs : ∀ raw ∈ segs, '\n' ∉ raw) :
    (∀ raw ∈ segs, cleanLine raw = true) ↔
      (∀ part ∈ lines.map content, '\n' ∉ part) ∧ lines.map rereadLine = lines := by
  induction lines generalizing segs k with
  | nil =>
    have hnil : segs = [] := List.length_eq_zero_iff.mp h.length_eq
    rw [hnil]
    exact iff_of_true (List.forall_mem_nil _) ⟨List.forall_mem_nil _, rfl⟩
  | cons line lines ih =>
    cases segs with
    | nil => cases h
    | cons raw segs =>
      obtain ⟨hline, hlines⟩ := List.forall₂_cons.mp h
      obtain ⟨hraw, hrest⟩ := List.forall_mem_cons.mp hsegs
      rw [List.forall_mem_cons, cleanLine_iff hline hraw, ih hlines hrest, List.map_cons,
        List.forall_mem_cons, List.map_cons, List.cons.injEq]
      exact and_and_and_comm

theorem ReadsLines.eq_of_same {k : ℕ} {segs : List (List Char)} {lines lines' : List Line}
    (h : ReadsLines environment k segs lines) (h' : ReadsLines environment k segs lines') :
    lines = lines' :=
  Except.ok.inj ((mapM_eq_ok.mpr h).symm.trans (mapM_eq_ok.mpr h'))

theorem reread_eq_of_same {lines : List Line}
    (h : (lines.map rereadLine).map (fun l ↦ (l.indent, l.kind)) =
      lines.map (fun l ↦ (l.indent, l.kind))) : lines.map rereadLine = lines := by
  rw [List.map_map, List.map_inj_left] at h
  have heq (line : Line) (hline : line ∈ lines) : rereadLine line = id line := by
    have hkind : rereadKind line.kind = line.kind := (Prod.mk.inj (h line hline)).2
    rw [rereadLine, hkind]
    rfl
  rw [List.map_congr_left heq, List.map_id]

/-- Rendering a configuration and reading it again keeps its lines exactly when no quoted argument
has the escape of a newline or a character outside ASCII. -/
theorem render_reparses_iff (environment : String → Option String) (source text : String)
    (doc : Document) (h : parseDocument environment ⟨.disabled, false⟩ source text = .ok doc) :
    (∃ doc', parseDocument environment ⟨.disabled, false⟩ source doc.render = .ok doc' ∧
      doc'.lines.map (fun l ↦ (l.indent, l.kind)) = doc.lines.map (fun l ↦ (l.indent, l.kind))) ↔
      CleanText text := by
  obtain ⟨hlines, rfl⟩ := parseDocument_eq_ok.mp h
  have hclean := hlines.clean_iff (fun raw hraw ↦ newline_not_mem_segments hraw)
  have hsegments : segments doc.render.toList =
      (doc.lines.map content).flatMap (List.splitOn '\n') := by
    rw [render_document, segments_lines hlines.ne_nil]
  unfold CleanText
  rw [hclean]
  constructor
  · intro h
    obtain ⟨doc', hparse, hsame⟩ := h
    obtain ⟨hlines', -⟩ := parseDocument_eq_ok.mp hparse
    rw [hsegments] at hlines'
    have hlen := congrArg List.length hsame
    rw [List.length_map, List.length_map] at hlen
    have hnewline : ∀ part ∈ doc.lines.map content, '\n' ∉ part := by
      apply not_mem_of_length_eq
      rw [hlines'.length_eq, hlen, List.length_map]
    rw [flatMap_splitOn hnewline] at hlines'
    rw [hlines'.eq_of_same hlines.again] at hsame
    exact ⟨hnewline, reread_eq_of_same hsame⟩
  · intro h
    obtain ⟨hnewline, hreread⟩ := h
    have hagain := hlines.again
    rw [hreread, ← flatMap_splitOn hnewline, ← hsegments] at hagain
    exact ⟨doc, parseDocument_eq_ok.mpr ⟨hagain, rfl⟩, rfl⟩

def sample : Document :=
  ⟨"t.cfg", [⟨1, "  ", .directive ⟨"set", [.bare "a\"é", .quoted "x\"y\\\t"], 2⟩⟩,
    ⟨2, "", .blank⟩, ⟨3, "", .comment "// tail"⟩]⟩

theorem sample_reparses :
    parseDocument (fun _ ↦ none) ⟨.disabled, false⟩ "t.cfg"
        "  set a\"é   \"x\\\"y\\\\\\t\"\r\n\n// tail" = .ok sample ∧
      ∃ doc', parseDocument (fun _ ↦ none) ⟨.disabled, false⟩ "t.cfg" sample.render = .ok doc' ∧
        doc'.lines.map (fun l ↦ (l.indent, l.kind)) =
          sample.lines.map (fun l ↦ (l.indent, l.kind)) := by
  have hparse : parseDocument (fun _ ↦ none) ⟨.disabled, false⟩ "t.cfg"
      "  set a\"é   \"x\\\"y\\\\\\t\"\r\n\n// tail" = .ok sample :=
    toOption_eq_some.mp (by decide +kernel)
  refine ⟨hparse, (render_reparses_iff _ _ _ _ hparse).mpr ?_⟩
  unfold CleanText
  decide +kernel

def broken : Document := ⟨"t.cfg", [⟨1, "", .directive ⟨"set", [.bare "a", .quoted "\n"], 2⟩⟩]⟩

def accented : Document := ⟨"t.cfg", [⟨1, "", .directive ⟨"set", [.bare "a", .quoted "Ã©"], 2⟩⟩]⟩

/-- The escape of a newline is rendered as a newline, and `é` is read as two characters. -/
theorem newline_not_reparsed :
    (parseDocument (fun _ ↦ none) ⟨.disabled, false⟩ "t.cfg" "set a \"\\n\"" = .ok broken ∧
      ¬∃ doc', parseDocument (fun _ ↦ none) ⟨.disabled, false⟩ "t.cfg" broken.render = .ok doc' ∧
        doc'.lines.map (fun l ↦ (l.indent, l.kind)) =
          broken.lines.map (fun l ↦ (l.indent, l.kind))) ∧
    parseDocument (fun _ ↦ none) ⟨.disabled, false⟩ "t.cfg" "set a \"é\"" = .ok accented ∧
      ¬∃ doc', parseDocument (fun _ ↦ none) ⟨.disabled, false⟩ "t.cfg" accented.render = .ok doc' ∧
        doc'.lines.map (fun l ↦ (l.indent, l.kind)) =
          accented.lines.map (fun l ↦ (l.indent, l.kind)) := by
  have hbroken : (parseDocument (fun _ ↦ none) ⟨.disabled, false⟩ "t.cfg" broken.render).toOption =
      none := by decide +kernel
  have haccented : (parseDocument (fun _ ↦ none) ⟨.disabled, false⟩ "t.cfg"
      accented.render).toOption.map (fun doc ↦ doc.lines.map (fun l ↦ (l.indent, l.kind))) ≠
        some (accented.lines.map (fun l ↦ (l.indent, l.kind))) := by decide +kernel
  refine ⟨⟨toOption_eq_some.mp (by decide +kernel), ?_⟩,
    toOption_eq_some.mp (by decide +kernel), ?_⟩
  · intro h
    obtain ⟨doc', hparse, -⟩ := h
    rw [toOption_eq_some.mpr hparse] at hbroken
    cases hbroken
  · intro h
    obtain ⟨doc', hparse, hsame⟩ := h
    rw [toOption_eq_some.mpr hparse, Option.map_some, hsame] at haccented
    exact haccented rfl

end Documents

end Aldivine.Config.RoundTrip
