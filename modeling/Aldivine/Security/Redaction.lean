import Aldivine.Foundation.Masking
import Aldivine.Foundation.Pieces

namespace Aldivine.Security.Redaction

open Foundation.Masking Foundation.Pieces

/-- The keys, each with what its values are replaced with. -/
structure Redactor where
  patterns : List (String × String)

def Redactor.new : Redactor where
  patterns := [
    ("access_token", "***REDACTED***"),
    ("refresh_token", "***REDACTED***"),
    ("authorization", "***REDACTED***"),
    ("session_cookie", "***REDACTED***"),
    ("password", "***REDACTED***"),
    ("db_password", "***REDACTED***"),
    ("secret", "***REDACTED***"),
    ("api_key", "***REDACTED***")]

/-- The value behind the first `kv` is replaced, up to the next quote. -/
def replaceValue (replacement kv out : List Char) : List Char :=
  match find kv out with
  | none => out
  | some pos =>
    let start := pos + kv.length
    match find ['"'] (out.drop start) with
    | none => out
    | some stop => out.take start ++ (replacement ++ out.drop (start + stop))

def redactKey (out : List Char) (pattern : String × String) : List Char :=
  let pat := if pattern.1.toList.head? = some '"' then pattern.1.toList.tail else pattern.1.toList
  replaceValue pattern.2.toList (pat ++ ": \"".toList)
    (replaceValue pattern.2.toList (pat ++ "=\"".toList) out)

def Redactor.redact (r : Redactor) (line : String) : String :=
  String.ofList (r.patterns.foldl redactKey line.toList)

def AllRedacted (r : Redactor) (line : String) : Prop :=
  ∀ pattern ∈ r.patterns, ∀ form ∈ ["=", ": "], ∀ before value after : List Char, '"' ∉ value →
    line.toList = before ++ (pattern.1 ++ form).toList ++ '"' :: (value ++ '"' :: after) →
      value = pattern.2.toList

/-- What is left has no known key with another value, and stays as it is. -/
structure Redacts (r : Redactor) (line : String) : Prop where
  all : AllRedacted r (r.redact line)
  idempotent : r.redact (r.redact line) = r.redact line

def marker : List Char := "***REDACTED***".toList

/-- The keys with what stands between them and the quote, in the order of their turns. -/
def marks : List (List Char) :=
  Redactor.new.patterns.flatMap (fun p ↦ [(p.1 ++ "=").toList, (p.1 ++ ": ").toList])

def endsWith (mark segment : List Char) : Bool := decide (mark <:+ segment)

def known (segment : List Char) : Bool := marks.any (fun mark ↦ endsWith mark segment)

/-- Read from left to right between the quotes, each known key whose segment is not masked itself is
the first to have a turn for one of its marks, or has the marker as its value already. -/
def Served (line : String) : Prop :=
  Covered endsWith known marker (.kept marks) (line.toList.splitOn '"').dropLast

variable {line : String} {segments : List (List Char)} {last mark : List Char}

section Segments

variable {replacement kv front rest : List Char}

theorem replaceValue_front (h : find kv (front ++ rest) = (find kv rest).map (· + front.length)) :
    replaceValue replacement kv (front ++ rest) = front ++ replaceValue replacement kv rest := by
  rw [replaceValue, replaceValue, h]
  cases find kv rest with
  | none => rfl
  | some pos =>
    have hstart : pos + front.length + kv.length = front.length + (pos + kv.length) := by omega
    dsimp only [Option.map_some]
    rw [hstart, List.drop_length_add_append, List.take_length_add_append]
    cases find ['"'] (rest.drop (pos + kv.length)) with
    | none => rfl
    | some stop =>
      dsimp only
      rw [Nat.add_assoc, List.drop_length_add_append, List.append_assoc]

theorem replaceValue_found (h : find kv (front ++ rest) = some (front.length - kv.length))
    (hle : kv.length ≤ front.length) :
    replaceValue replacement kv (front ++ rest) =
      front ++ (find ['"'] rest).elim rest (fun stop ↦ replacement ++ rest.drop stop) := by
  rw [replaceValue, h]
  dsimp only
  rw [Nat.sub_add_cancel hle, List.drop_left, List.take_left]
  cases find ['"'] rest with
  | none => rfl
  | some stop =>
    dsimp only [Option.elim_some]
    rw [List.drop_length_add_append]

theorem replaceValue_textOf (hmark : '"' ∉ mark) (hsegments : ∀ u ∈ segments, '"' ∉ u)
    (hlast : '"' ∉ last) :
    replaceValue replacement (mark ++ ['"']) (textOf '"' segments last) =
      textOf '"' (maskAfter (endsWith mark) replacement segments) last := by
  induction segments with
  | nil =>
    rw [replaceValue, textOf, List.flatMap_nil, List.nil_append, find_eq_none hlast]
    rfl
  | cons u segments ih =>
    obtain ⟨hu, hsegments⟩ := List.forall_mem_cons.mp hsegments
    have hsplit : ∀ l : List Char, u ++ '"' :: l = (u ++ ['"']) ++ l := by simp
    have hfind := find_segment hmark hu (textOf '"' segments last)
    rw [textOf_cons, maskAfter, textOf_cons, hsplit (textOf '"' segments last),
      hsplit (textOf '"' _ last)]
    rw [hsplit] at hfind
    by_cases hend : mark <:+ u
    · have hlen : (mark ++ ['"']).length ≤ (u ++ ['"']).length := by
        simpa using hend.length_le
      rw [if_pos hend] at hfind
      rw [replaceValue_found (by simpa using hfind) hlen, endsWith, decide_eq_true hend, if_pos rfl]
      congr 1
      cases segments with
      | nil =>
        have hnone : find ['"'] last = none := find_eq_none (p := []) hlast
        rw [blank, textOf, List.flatMap_nil, List.nil_append, hnone, Option.elim_none]
      | cons v segments =>
        have hv := (List.forall_mem_cons.mp hsegments).1
        rw [textOf_cons, find_quote hv, blank, textOf_cons, Option.elim_some, List.drop_left]
    · rw [if_neg hend] at hfind
      rw [replaceValue_front (by simpa using hfind), endsWith, decide_eq_false hend,
        if_neg Bool.false_ne_true, ih hsegments]

/-- Both forms of a key, one after the other. -/
theorem redactKey_textOf {pattern : String × String} (hkey : '"' ∉ pattern.1.toList)
    (hvalue : pattern.2.toList = marker) (hsegments : ∀ u ∈ segments, '"' ∉ u)
    (hlast : '"' ∉ last) :
    redactKey (textOf '"' segments last) pattern =
      textOf '"' (maskAll endsWith marker
        [(pattern.1 ++ "=").toList, (pattern.1 ++ ": ").toList] segments) last := by
  have hhead : pattern.1.toList.head? ≠ some '"' := fun h ↦ hkey (List.mem_of_head? h)
  have hfirst : '"' ∉ (pattern.1 ++ "=").toList := by simpa using hkey
  have hsecond : '"' ∉ (pattern.1 ++ ": ").toList := by simpa using hkey
  have hmasked : ∀ u ∈ maskAfter (endsWith (pattern.1 ++ "=").toList) marker segments, '"' ∉ u :=
    forall_mem_maskAfter hsegments (by decide)
  have heq : pattern.1.toList ++ "=\"".toList = (pattern.1 ++ "=").toList ++ ['"'] := by simp
  have hcolon : pattern.1.toList ++ ": \"".toList = (pattern.1 ++ ": ").toList ++ ['"'] := by simp
  rw [redactKey, if_neg hhead, hvalue, heq, hcolon, replaceValue_textOf hfirst hsegments hlast,
    replaceValue_textOf hsecond hmasked hlast]
  rfl

theorem foldl_redactKey {patterns : List (String × String)}
    (h : ∀ p ∈ patterns, '"' ∉ p.1.toList ∧ p.2.toList = marker)
    (hsegments : ∀ u ∈ segments, '"' ∉ u) (hlast : '"' ∉ last) :
    patterns.foldl redactKey (textOf '"' segments last) =
      textOf '"' (maskAll endsWith marker
        (patterns.flatMap (fun p ↦ [(p.1 ++ "=").toList, (p.1 ++ ": ").toList])) segments)
        last := by
  induction patterns generalizing segments with
  | nil => rfl
  | cons p patterns ih =>
    obtain ⟨hp, hpatterns⟩ := List.forall_mem_cons.mp h
    rw [List.foldl_cons, redactKey_textOf hp.1 hp.2 hsegments hlast, List.flatMap_cons,
      maskAll_append]
    exact ih hpatterns (forall_mem_maskAll hsegments (by decide))

theorem new_patterns : ∀ p ∈ Redactor.new.patterns, '"' ∉ p.1.toList ∧ p.2.toList = marker := by
  decide

end Segments

section Lines

theorem intercalate_concat (segments : List (List Char)) (last : List Char) :
    ['"'].intercalate (segments ++ [last]) = textOf '"' segments last := by
  induction segments with
  | nil => simp [textOf]
  | cons u segments ih =>
    rw [List.cons_append, List.intercalate_cons_of_ne_nil (List.concat_ne_nil _ _), ih, textOf_cons]
    simp

theorem exists_textOf (text : List Char) : ∃ segments last, text = textOf '"' segments last ∧
    '"' ∉ last ∧ ∀ u ∈ segments, '"' ∉ u := by
  have hne := List.splitOn_ne_nil '"' text
  refine ⟨(text.splitOn '"').dropLast, (text.splitOn '"').getLast hne, ?_,
    not_mem_of_mem_splitOn (List.getLast_mem hne),
    fun u hu ↦ not_mem_of_mem_splitOn (List.dropLast_subset _ hu)⟩
  rw [← intercalate_concat, List.dropLast_concat_getLast, List.intercalate_splitOn]

theorem dropLast_splitOn_textOf (hsegments : ∀ u ∈ segments, '"' ∉ u) (hlast : '"' ∉ last) :
    ((textOf '"' segments last).splitOn '"').dropLast = segments := by
  rw [textOf, splitOn_terminated_append, flatMap_splitOn hsegments, List.splitOn_eq_singleton hlast,
    List.dropLast_concat]

theorem known_iff {u : List Char} : known u = true ↔
    ∃ pattern ∈ Redactor.new.patterns, ∃ form ∈ ["=", ": "], (pattern.1 ++ form).toList <:+ u := by
  simp [known, marks, endsWith]

theorem quote_not_mem_mark {pattern : String × String} {form : String}
    (hpattern : pattern ∈ Redactor.new.patterns) (hform : form ∈ ["=", ": "]) :
    '"' ∉ (pattern.1 ++ form).toList := by
  have hkey := (new_patterns pattern hpattern).1
  have hclean : ∀ form ∈ ["=", ": "], '"' ∉ form.toList := by decide
  rw [String.toList_append, List.mem_append, not_or]
  exact ⟨hkey, hclean form hform⟩

theorem segments_of_text {before value after : List Char} (hmark : '"' ∉ mark)
    (hvalue : '"' ∉ value) :
    ∃ l x l', ((before ++ mark ++ '"' :: (value ++ '"' :: after)).splitOn '"').dropLast =
      l ++ (x ++ mark) :: value :: l' := by
  have hbefore := List.splitOn_ne_nil '"' before
  have hjoined := splitOn_append (List.dropLast_concat_getLast hbefore).symm
    (List.splitOn_eq_singleton hmark)
  refine ⟨(before.splitOn '"').dropLast, (before.splitOn '"').getLast hbefore,
    (after.splitOn '"').dropLast, ?_⟩
  rw [List.splitOn_append_cons_self, List.splitOn_append_cons_self, hjoined,
    List.splitOn_eq_singleton hvalue, List.append_assoc,
    List.dropLast_append_of_ne_nil (by simp), List.cons_append, List.nil_append,
    List.dropLast_cons_of_ne_nil (by simp),
    List.dropLast_append_of_ne_nil (List.splitOn_ne_nil '"' after), List.singleton_append]

theorem allRedacted_iff (hsegments : ∀ u ∈ segments, '"' ∉ u) (hlast : '"' ∉ last) :
    AllRedacted Redactor.new (String.ofList (textOf '"' segments last)) ↔
      Masked known marker segments := by
  rw [Masked, List.isChain_iff_forall_rel_of_append_cons_cons]
  constructor
  · intro h u v l l' hsplit hknown
    obtain ⟨pattern, hpattern, form, hform, x, rfl⟩ := known_iff.mp hknown
    have hvalue : '"' ∉ v := hsegments v (by simp [hsplit])
    have hredacted := h pattern hpattern form hform (textOf '"' l x) v (textOf '"' l' last) hvalue
    rw [(new_patterns pattern hpattern).2] at hredacted
    refine hredacted ?_
    simp [hsplit, textOf]
  · intro h pattern hpattern form hform before value after hvalue htext
    have hmark := quote_not_mem_mark hpattern hform
    obtain ⟨l, x, l', hsplit⟩ := @segments_of_text _ before value after hmark hvalue
    rw [String.toList_ofList] at htext
    rw [← htext, dropLast_splitOn_textOf hsegments hlast] at hsplit
    rw [(new_patterns pattern hpattern).2]
    exact h hsplit (known_iff.mpr ⟨pattern, hpattern, form, hform, List.suffix_append x _⟩)

end Lines

section Results

theorem redact_textOf (hsegments : ∀ u ∈ segments, '"' ∉ u) (hlast : '"' ∉ last) :
    Redactor.new.redact (String.ofList (textOf '"' segments last)) =
      String.ofList (textOf '"' (maskAll endsWith marker marks segments) last) := by
  rw [Redactor.redact, String.toList_ofList, foldl_redactKey new_patterns hsegments hlast]
  rfl

theorem known_of_endsWith {u : List Char} (hmark : mark ∈ marks) (h : endsWith mark u = true) :
    known u = true :=
  List.any_eq_true.mpr ⟨mark, hmark, h⟩

theorem marker_not_known : known marker = false := by decide

/-- All is redacted, and stays so, if and only if each key is served in its turn. -/
theorem redacts_iff (line : String) : Redacts Redactor.new line ↔ Served line := by
  obtain ⟨segments, last, htext, hlast, hsegments⟩ := exists_textOf line.toList
  have hline : line = String.ofList (textOf '"' segments last) := by
    rw [← htext, String.ofList_toList]
  have hmask : ∀ mark ∈ marks, endsWith mark marker = false := by decide
  have hmasked : ∀ u ∈ maskAll endsWith marker marks segments, '"' ∉ u :=
    forall_mem_maskAll hsegments (by decide)
  have hall : AllRedacted Redactor.new (Redactor.new.redact line) ↔ Served line := by
    rw [hline, redact_textOf hsegments hlast, allRedacted_iff hmasked hlast,
      masked_maskAll_iff marker_not_known hmask, Served, String.toList_ofList,
      dropLast_splitOn_textOf hsegments hlast]
  refine ⟨fun h ↦ hall.mp h.all, fun h ↦ ⟨hall.mpr h, ?_⟩⟩
  have hdone := hall.mpr h
  rw [hline, redact_textOf hsegments hlast, allRedacted_iff hmasked hlast] at hdone
  rw [hline, redact_textOf hsegments hlast, redact_textOf hmasked hlast,
    hdone.maskAll_eq (fun mark hmark u h ↦ known_of_endsWith hmark h)]

/-- Only the first of two passwords is replaced. -/
theorem second_kept : ¬Redacts Redactor.new "password=\"a\" password=\"b\"" := by
  intro h
  have hvalue := h.all ("password", "***REDACTED***") (by decide) "=" (by decide)
    "password=\"***REDACTED***\" ".toList ['b'] [] (by decide) (by decide +kernel)
  cases hvalue

end Results

end Aldivine.Security.Redaction
