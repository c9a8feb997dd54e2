import Aldivine.Manifests.Strings

namespace Aldivine.Manifests.Fidelity

open Foundation.Fallible Foundation.Text Foundation.Utf8 Lexing Model Parsing Strings

variable {F : Type} {host : Host F}

section Fields

variable {field other : ListField} {out out' : NormalizedManifest F} {more : List String}

theorem get_extend_self : field.get (field.extend more out) = field.get out ++ more := by
  cases field with
  | _ => rfl

theorem get_extend_ne (h : field ≠ other) : field.get (other.extend more out) = field.get out := by
  cases field <;> cases other <;> first | rfl | exact absurd rfl h

theorem strList_eq_ok {name : String} {value : ManifestValue F} {line : ℕ} :
    strList other out name value line = .ok out' ↔
      ∃ more, value.coerceStringList = .ok more ∧ out' = other.extend more out := by
  unfold strList
  rw [bind_eq_ok]
  refine exists_congr (fun more ↦ ?_)
  rw [mapError_eq_ok]
  exact and_congr_right' ⟨fun h ↦ by cases h; rfl, fun h ↦ by rw [h]; rfl⟩

theorem strList_grows {name : String} {value : ManifestValue F} {line : ℕ}
    (h : strList other out name value line = .ok out') : field.get out <+: field.get out' := by
  obtain ⟨more, -, rfl⟩ := strList_eq_ok.mp h
  by_cases hother : field = other
  · rw [hother, get_extend_self]
    exact List.prefix_append _ _
  · refine ⟨[], ?_⟩
    rw [List.append_nil, get_extend_ne hother]

theorem get_directives (records : List DirectiveRecord) :
    field.get { out with directives := records } = field.get out := by
  cases field with
  | _ => rfl

theorem applyDirective_grows {name : String} {value : ManifestValue F} {line : ℕ}
    (h : applyDirective host out name value line = .ok out') :
    field.get out <+: field.get out' := by
  unfold applyDirective at h
  dsimp only at h
  split at h
  · have hgrows := @strList_grows _ field _ _ _ _ _ _ h
    rwa [get_directives] at hgrows
  split at h
  case h_5 =>
    split at h
    · cases h
      cases field with
      | _ => exact List.prefix_refl _
    · cases h
  case h_13 =>
    obtain ⟨category, -, h⟩ := bind_eq_ok.mp h
    cases h
    cases field with
    | _ => exact List.prefix_refl _
  all_goals
    cases h
    cases field with
    | _ => exact List.prefix_refl _

theorem applyDirective_list {name : String} (h : listField name = some field)
    (value : ManifestValue F) (line : ℕ) :
    (∃ out', applyDirective host out name value line = .ok out' ∧
      field.get out' = field.get out ++ more) ↔ value.coerceStringList = .ok more := by
  unfold applyDirective
  dsimp only
  rw [h]
  dsimp only
  simp only [strList_eq_ok]
  constructor
  · intro h
    obtain ⟨_, ⟨more', hmore, rfl⟩, hget⟩ := h
    rw [get_extend_self, get_directives] at hget
    rw [hmore, List.append_cancel_left hget]
  · intro hmore
    refine ⟨_, ⟨more, hmore, rfl⟩, ?_⟩
    rw [get_extend_self, get_directives]

end Fields

section Runs

variable {p : Parser F} {out out' m : NormalizedManifest F} {src : String} {field : ListField}

inductive Reaches (host : Host F) (src : String) : Parser F → NormalizedManifest F → Prop
  | start : Reaches host src (Parser.new src) {}
  | next {p : Parser F} {out out' : NormalizedManifest F} {q : { q : Parser F // q.size < p.size }}
      (hreach : Reaches host src p out) (h : parseDirective host p out = .ok (some (q, out'))) :
      Reaches host src q.val out'

theorem parseDirective_ident {name : String} {q : Parser F}
    (htake : p.take host = .ok (some (.ident name), q)) {t : { t : Parser F // t.size < p.size }} :
    parseDirective host p out = .ok (some (t, out')) ↔
      ∃ r value s value' t', skipAssign host q = .ok r ∧ parseValue host r.val = .ok (value, s) ∧
        foldTable host value s.val = .ok (value', t') ∧ t'.val = t.val ∧
        applyDirective host out name value' q.lex.line = .ok out' := by
  unfold parseDirective
  split
  case h_3 name' q' htake' =>
    rw [htake] at htake'
    cases htake'
    constructor
    · intro h
      obtain ⟨r, hassign, h⟩ := bind_eq_ok.mp h
      obtain ⟨⟨value, s⟩, hvalue, h⟩ := bind_eq_ok.mp h
      obtain ⟨⟨value', t'⟩, hfold, h⟩ := bind_eq_ok.mp h
      obtain ⟨out'', happly, h⟩ := bind_eq_ok.mp h
      cases h
      exact ⟨r, value, s, value', t', hassign, hvalue, hfold, rfl, happly⟩
    · intro h
      obtain ⟨r, value, s, value', t', hassign, hvalue, hfold, ht, happly⟩ := h
      obtain ⟨t, hsize⟩ := t
      subst ht
      exact bind_eq_ok.mpr ⟨r, hassign, bind_eq_ok.mpr ⟨_, hvalue, bind_eq_ok.mpr ⟨_, hfold,
        bind_eq_ok.mpr ⟨_, happly, rfl⟩⟩⟩⟩
  all_goals
    rename_i htake'
    rw [htake] at htake'
    cases htake'
  rename_i hident
  exact (hident name rfl).elim

theorem take_of_parseDirective {q : { q : Parser F // q.size < p.size }}
    (h : parseDirective host p out = .ok (some (q, out'))) :
    ∃ name q', p.take host = .ok (some (.ident name), q') := by
  unfold parseDirective at h
  split at h
  case h_3 name q' htake => exact ⟨name, q', htake⟩
  all_goals cases h

/-- What every directive keeps, the whole manifest keeps. -/
theorem parseManifest_keeps {R : NormalizedManifest F → NormalizedManifest F → Prop}
    (hrefl : ∀ out, R out out) (htrans : ∀ out out' m, R out out' → R out' m → R out m)
    (hstep : ∀ out name value line out',
      applyDirective host out name value line = .ok out' → R out out')
    (h : parseManifest host p out = .ok m) : R out m := by
  fun_induction parseManifest host p out with
  | case1 => cases h
  | case2 => cases h
  | case3 =>
    cases h
    exact hrefl _
  | case4 p out q hq out' hdirective ih =>
    obtain ⟨name, q', htake⟩ := take_of_parseDirective hdirective
    obtain ⟨r, value, s, value', t', -, -, -, -, happly⟩ :=
      (parseDirective_ident htake).mp hdirective
    exact htrans _ _ _ (hstep _ _ _ _ _ happly) (ih h)

theorem parseManifest_grows (h : parseManifest host p out = .ok m) :
    field.get out <+: field.get m :=
  @parseManifest_keeps _ _ _ _ _ (fun out m ↦ field.get out <+: field.get m)
    (fun _ ↦ List.prefix_refl _) (fun _ _ _ ↦ List.IsPrefix.trans)
    (fun _ _ _ _ _ ↦ applyDirective_grows) h

theorem parseManifest_step {q : { q : Parser F // q.size < p.size }}
    (h : parseDirective host p out = .ok (some (q, out'))) :
    parseManifest host p out = parseManifest host q.val out' := by
  rw [parseManifest, h]

theorem Reaches.parse_eq (h : Reaches host src p out) :
    parseFxmanifest host src = parseManifest host p out := by
  induction h with
  | start => rfl
  | next hreach h ih => rw [ih, parseManifest_step h]

end Runs

section Values

/-- White space and comments. -/
def Gap (gap : List UInt8) : Prop :=
  ∀ rest line, ∃ line', skipWsAndComments ⟨gap ++ rest, line⟩ = skipWsAndComments ⟨rest, line'⟩

theorem gap_space {gap : List UInt8} (h : ∀ b ∈ gap, isSpace b = true) : Gap gap := by
  intro rest line
  induction gap generalizing line with
  | nil => exact ⟨line, rfl⟩
  | cons b gap ih =>
    obtain ⟨hb, hgap⟩ := List.forall_mem_cons.mp h
    obtain ⟨line', hskip⟩ := ih hgap (bumpLine line b)
    refine ⟨line', ?_⟩
    rw [← hskip, List.cons_append, skipWsAndComments]
    simp only [isSpace, Bool.or_eq_true, beq_iff_eq] at hb
    rcases hb with ((rfl | rfl) | rfl) | rfl
    all_goals rfl

theorem skip_quote (q : Quote) (rest : List UInt8) (line : ℕ) :
    skipWsAndComments ⟨q.byte :: rest, line⟩ = .ok ⟨q.byte :: rest, line⟩ := by
  cases q with
  | single =>
    rw [skipWsAndComments]
    rfl
  | double =>
    rw [skipWsAndComments]
    rfl

theorem skip_assign (rest : List UInt8) (line : ℕ) :
    skipWsAndComments ⟨61 :: rest, line⟩ = .ok ⟨61 :: rest, line⟩ := by
  rw [skipWsAndComments]
  rfl

variable {q : Quote} {pieces : List Piece} {gap after : List UInt8} {line : ℕ}

theorem next_literal (hvalid : ∀ x ∈ pieces, x.Valid q) (hgap : Gap gap) :
    ∃ line', next host ⟨gap ++ (encode (literal q pieces) ++ after), line⟩ =
      .ok (some (.str (String.ofList (pieces.flatMap Piece.read))), ⟨after, line'⟩) := by
  obtain ⟨line', hskip⟩ := hgap (encode (literal q pieces) ++ after) line
  have hbytes : encode (literal q pieces) ++ after =
      q.byte :: (encode (pieces.flatMap Piece.text) ++ q.byte :: after) := by
    have hquote : String.utf8EncodeChar q.char = [q.byte] := by
      cases q with
      | single => rfl
      | double => rfl
    rw [literal, encode_cons, encode_append, encode_cons, encode_nil, hquote, List.append_assoc,
      List.append_assoc, List.append_assoc]
    rfl
  have hread := @readString_pieces line' line' [] q pieces hvalid after
  refine ⟨line', ?_⟩
  rw [next, hskip, hbytes, skip_quote]
  show scan host ⟨q.byte :: (encode (pieces.flatMap Piece.text) ++ q.byte :: after), line'⟩ = _
  cases q with
  | single =>
    show readString Quote.single.byte line' [] _ >>= _ = _
    rw [hread]
    rfl
  | double =>
    show readString Quote.double.byte line' [] _ >>= _ = _
    rw [hread]
    rfl

theorem next_assign (hgap : Gap gap) :
    ∃ line', next host ⟨gap ++ 61 :: after, line⟩ = .ok (some .assign, ⟨after, line'⟩) := by
  obtain ⟨line', hskip⟩ := hgap (61 :: after) line
  refine ⟨line', ?_⟩
  rw [next, hskip, skip_assign]
  rfl

/-- What stands before a value: white space and comments, and perhaps `=` between two of them. -/
def before (gap : List UInt8) (assign : Option (List UInt8)) : List UInt8 :=
  gap ++ assign.elim [] (61 :: ·)

def lexed (pieces : List Piece) : String := String.ofList (pieces.flatMap Piece.read)

theorem peek_none {lex lex' : Lexer} {tok : Option (Tok F)} (h : next host lex = .ok (tok, lex')) :
    Parser.peek host ⟨lex, none⟩ = .ok (tok, ⟨lex', tok⟩) :=
  bind_eq_ok.mpr ⟨_, h, rfl⟩

theorem take_none {lex lex' : Lexer} {tok : Option (Tok F)} (h : next host lex = .ok (tok, lex')) :
    Parser.take host ⟨lex, none⟩ = .ok (tok, ⟨lex', none⟩) :=
  bind_eq_ok.mpr ⟨_, h, rfl⟩

theorem skipAssign_assign {p r : Parser F} (h : p.peek host = .ok (some .assign, r)) :
    ∃ hsize, skipAssign host p = .ok ⟨r.consume, hsize⟩ := by
  refine ⟨(Parser.consume_size h).le, ?_⟩
  unfold skipAssign
  split
  case h_2 hpeek =>
    rw [h] at hpeek
    cases hpeek
    rfl
  all_goals
    rename_i hpeek
    rw [h] at hpeek
    cases hpeek
  rename_i hassign
  exact (hassign rfl).elim

theorem skipAssign_other {p r : Parser F} {tok : Option (Tok F)} (h : p.peek host = .ok (tok, r))
    (htok : tok ≠ some .assign) : ∃ hsize, skipAssign host p = .ok ⟨r, hsize⟩ := by
  refine ⟨Parser.peek_size h, ?_⟩
  unfold skipAssign
  split
  case h_3 hpeek =>
    rw [h] at hpeek
    cases hpeek
    rfl
  all_goals
    rename_i hpeek
    rw [h] at hpeek
    cases hpeek
  exact (htok rfl).elim

theorem parseValue_str {p r : Parser F} {text : String}
    (h : p.take host = .ok (some (.str text), r)) :
    ∃ hsize, parseValue host p = .ok (decodeLiteral text, ⟨r, hsize⟩) := by
  refine ⟨Parser.take_size h, ?_⟩
  rw [parseValue]
  split
  case h_3 htake =>
    rw [h] at htake
    cases htake
    rfl
  all_goals
    rename_i htake
    rw [h] at htake
    cases htake
  rename_i hstr _ _ _
  exact (hstr _ rfl).elim

theorem foldTable_scalar {value : ManifestValue F} (h : value.asStr = none) (p : Parser F) :
    foldTable host value p = .ok (value, ⟨p, le_rfl⟩) := by
  cases value with
  | str text => cases h
  | _ => rfl

theorem foldTable_str {p r : Parser F} {tok : Option (Tok F)} {text : String}
    (h : p.peek host = .ok (tok, r)) (htok : tok ≠ some .lBrace) :
    ∃ hsize, foldTable host (.str text) p = .ok (.str text, ⟨r, hsize⟩) := by
  refine ⟨Parser.peek_size h, ?_⟩
  unfold foldTable
  dsimp only
  split
  case h_3 hpeek =>
    rw [h] at hpeek
    cases hpeek
    rfl
  all_goals
    rename_i hpeek
    rw [h] at hpeek
    cases hpeek
  exact (htok rfl).elim

theorem skipAssign_before {assign : Option (List UInt8)} {body : List UInt8} {tok : Tok F}
    (hgap : Gap gap) (hassign : ∀ g ∈ assign, Gap g) (htok : tok ≠ .assign)
    (hnext : ∀ g line, Gap g →
      ∃ line', next host ⟨g ++ body, line⟩ = .ok (some tok, ⟨after, line'⟩)) :
    ∃ r line', skipAssign host ⟨⟨before gap assign ++ body, line⟩, none⟩ = .ok r ∧
      r.val.take host = .ok (some tok, ⟨⟨after, line'⟩, none⟩) := by
  cases assign with
  | none =>
    obtain ⟨line', hvalue⟩ := hnext gap line hgap
    have hother : some tok ≠ some .assign := fun h ↦ htok (Option.some.inj h)
    obtain ⟨hsize, hskip⟩ := skipAssign_other (peek_none hvalue) hother
    rw [before, Option.elim_none, List.append_nil]
    exact ⟨⟨_, hsize⟩, line', hskip, rfl⟩
  | some second =>
    obtain ⟨line', hequals⟩ := @next_assign _ host gap (second ++ body) line hgap
    obtain ⟨hsize, hskip⟩ := skipAssign_assign (peek_none hequals)
    obtain ⟨line'', hvalue⟩ := hnext second line' (hassign second rfl)
    rw [before, Option.elim_some, List.append_assoc, List.cons_append]
    exact ⟨⟨_, hsize⟩, line'', hskip, take_none hvalue⟩

theorem parseValue_literal {assign : Option (List UInt8)} (hvalid : ∀ x ∈ pieces, x.Valid q)
    (hgap : Gap gap) (hassign : ∀ g ∈ assign, Gap g) :
    ∃ r s line', skipAssign host
        ⟨⟨before gap assign ++ (encode (literal q pieces) ++ after), line⟩, none⟩ = .ok r ∧
      parseValue host r.val = .ok (decodeLiteral (lexed pieces), s) ∧
      s.val = ⟨⟨after, line'⟩, none⟩ := by
  obtain ⟨r, line', hskip, htake⟩ := @skipAssign_before _ host gap after line assign _
    (.str (lexed pieces)) hgap hassign nofun
    (fun g line hg ↦ @next_literal _ host q pieces g after line hvalid hg)
  obtain ⟨hsize, hvalue⟩ := parseValue_str htake
  exact ⟨r, ⟨_, hsize⟩, line', hskip, hvalue, rfl⟩

/-- A literal has the value of the text it writes exactly when that is not one of the texts that
stand for keywords and each of its characters is kept. -/
theorem decodeLiteral_iff {s : String} (hs : s.toList = pieces.map Piece.char) :
    decodeLiteral (lexed pieces) = (.str s : ManifestValue F) ↔
      (∀ x ∈ pieces, x.kept = true) ∧ s ∉ sentinels := by
  have htext : lexed pieces = s ↔ ∀ x ∈ pieces, x.kept = true := by
    rw [← read_pieces_iff, ← hs, ← String.toList_inj, lexed, String.toList_ofList]
  rcases @decodeLiteral_cases F (lexed pieces) with ⟨hnot, hstr⟩ | ⟨hmem, hkeyword⟩
  · rw [hstr, ManifestValue.str.injEq, htext]
    refine (and_iff_left_of_imp fun hkept ↦ ?_).symm
    rwa [← htext.mpr hkept]
  · refine iff_of_false ?_ ?_
    · rcases hkeyword with ⟨b, h⟩ | h
      · rw [h]
        exact nofun
      · rw [h]
        exact nofun
    · intro h
      obtain ⟨hkept, hnot⟩ := h
      rw [htext.mpr hkept] at hmem
      exact hnot hmem

theorem coerce_decodeLiteral {text s : String} :
    (decodeLiteral text : ManifestValue F).coerceStringList = .ok [s] ↔
      decodeLiteral text = (.str s : ManifestValue F) := by
  rcases @decodeLiteral_cases F text with ⟨-, h⟩ | ⟨-, ⟨b, h⟩ | h⟩
  · rw [h, ManifestValue.str.injEq]
    constructor
    · intro hlist
      cases hlist
      rfl
    · intro heq
      rw [heq]
      rfl
  · rw [h]
    exact iff_of_false nofun nofun
  · rw [h]
    exact iff_of_false nofun nofun

def Scalar (host : Host F) (after : List UInt8) : Prop :=
  ∀ line, ∃ tok lex, next host ⟨after, line⟩ = .ok (tok, lex) ∧ tok ≠ some .lBrace

theorem foldTable_literal (hafter : Scalar host after) (text : String) (line : ℕ) :
    ∃ t, foldTable host (decodeLiteral text) ⟨⟨after, line⟩, none⟩ =
      .ok (decodeLiteral text, t) := by
  rcases @decodeLiteral_cases F text with ⟨-, h⟩ | ⟨-, ⟨b, h⟩ | h⟩
  · rw [h]
    obtain ⟨tok, lex, hnext, htok⟩ := hafter line
    obtain ⟨hsize, hfold⟩ := @foldTable_str _ host _ _ _ text (peek_none hnext) htok
    exact ⟨_, hfold⟩
  · rw [h]
    exact ⟨_, foldTable_scalar rfl _⟩
  · rw [h]
    exact ⟨_, foldTable_scalar rfl _⟩

end Values

/-- A quoted literal is the value `Str` of the text it writes, and adds it to the field of its
directive, exactly when the text is ASCII, no sentinel, and written without decimal escapes. -/
theorem literal_kept_iff (host : Host F) (src : String) (p : Parser F) (out : NormalizedManifest F)
    (hreach : Reaches host src p out) (name : String) (field : ListField)
    (hname : listField name = some field) (q : Quote) (s : String) (pieces : List Piece)
    (hs : s.toList = pieces.map Piece.char) (hvalid : ∀ x ∈ pieces, x.Valid q)
    (gap after : List UInt8) (assign : Option (List UInt8)) (line : ℕ) (hgap : Gap gap)
    (hassign : ∀ g ∈ assign, Gap g) (hafter : Scalar host after)
    (htake : p.take host = .ok (some (.ident name),
      ⟨⟨before gap assign ++ (encode (literal q pieces) ++ after), line⟩, none⟩)) :
    ((∃ r, parseValue host ⟨⟨gap ++ (encode (literal q pieces) ++ after), line⟩, none⟩ =
        .ok (.str s, r)) ↔ (∀ x ∈ pieces, x.kept = true) ∧ s ∉ sentinels) ∧
    ((∃ p' out', parseDirective host p out = .ok (some (p', out')) ∧
        Reaches host src p'.val out' ∧ field.get out' = field.get out ++ [s] ∧
        ∀ m, parseFxmanifest host src = .ok m → field.get out ++ [s] <+: field.get m) ↔
      (∀ x ∈ pieces, x.kept = true) ∧ s ∉ sentinels) := by
  have hdecode := @decodeLiteral_iff F pieces s hs
  constructor
  · obtain ⟨line', hnext⟩ := @next_literal _ host q pieces gap after line hvalid hgap
    obtain ⟨hsize, hvalue⟩ := parseValue_str (take_none hnext)
    rw [← hdecode, hvalue]
    constructor
    · intro h
      obtain ⟨r, hr⟩ := h
      exact (Prod.mk.inj (Except.ok.inj hr)).1
    · intro hstr
      rw [lexed] at hstr
      rw [hstr]
      exact ⟨_, rfl⟩
  · obtain ⟨r, ⟨v, hv⟩, line', hskip, hvalue, hrest⟩ :=
      @parseValue_literal _ host q pieces gap after line assign hvalid hgap hassign
    subst hrest
    obtain ⟨t, hfold⟩ := foldTable_literal hafter (lexed pieces) line'
    rw [← hdecode, ← coerce_decodeLiteral, ← @applyDirective_list _ host field out [s] name hname
      (decodeLiteral (lexed pieces)) line]
    constructor
    · intro h
      obtain ⟨p', out', hdirective, -, hget, -⟩ := h
      obtain ⟨r', value, v', value', t', hskip', hvalue', hfold', -, happly⟩ :=
        (parseDirective_ident htake).mp hdirective
      rw [hskip] at hskip'
      cases hskip'
      rw [hvalue] at hvalue'
      cases hvalue'
      rw [hfold] at hfold'
      cases hfold'
      exact ⟨out', happly, hget⟩
    · intro h
      obtain ⟨out', happly, hget⟩ := h
      have hsize : t.val.size < p.size :=
        t.property.trans_lt (hv.trans_le (r.property.trans (Parser.take_size htake).le))
      have hdirective : parseDirective host p out = .ok (some (⟨t.val, hsize⟩, out')) :=
        (parseDirective_ident htake).mpr ⟨r, _, _, _, t, hskip, hvalue, hfold, rfl, happly⟩
      have hnext := Reaches.next hreach hdirective
      refine ⟨⟨t.val, hsize⟩, out', hdirective, hnext, hget, fun m hm ↦ ?_⟩
      rw [hnext.parse_eq] at hm
      rw [← hget]
      exact parseManifest_grows hm

section Samples

def wholeNumbers : Host ℤ := ⟨String.toInt?, 0, some, id, fun _ ↦ ""⟩

def withScript (pieces : List Piece) : String :=
  "client_script " ++ String.ofList (literal .single pieces) ++ "\nfx_version 'cerulean'"

def apostrophe : List Piece :=
  [.plain 'i', .plain 't', .named '\'' '\'', .plain 's', .hex false 0 10]

theorem scalar_version : Scalar wholeNumbers (utf8 "\nfx_version 'cerulean'") := by
  have hbytes : utf8 "\nfx_version 'cerulean'" = 10 :: 102 :: utf8 "x_version 'cerulean'" := by
    decide +kernel
  have hname : ofUtf8 ((102 :: utf8 "x_version 'cerulean'").takeWhile isIdent) =
      some "fx_version" := by decide +kernel
  intro line
  refine ⟨some (.ident "fx_version"),
    ⟨(102 :: utf8 "x_version 'cerulean'").dropWhile isIdent, line + 1⟩, ?_, by decide⟩
  rw [next, hbytes, skipWsAndComments]
  show skipWsAndComments ⟨102 :: utf8 "x_version 'cerulean'", line + 1⟩ >>= scan wholeNumbers = _
  rw [skipWsAndComments]
  show Except.ok (some (keyword ((ofUtf8 ((102 :: utf8 "x_version 'cerulean'").takeWhile
    isIdent)).getD _)), _) = _
  rw [hname]
  rfl

theorem apostrophe_kept :
    (∃ m, parseFxmanifest wholeNumbers (withScript apostrophe) = .ok m) ∧
      ∀ m, parseFxmanifest wholeNumbers (withScript apostrophe) = .ok m →
        ["it's\n"] <+: m.clientScripts := by
  have hparse : (parseFxmanifest wholeNumbers (withScript apostrophe)).toOption.isSome = true := by
    decide +kernel
  have htake : Parser.take wholeNumbers (Parser.new (withScript apostrophe)) =
      .ok (some (.ident "client_script"), ⟨⟨before [32] none ++
        (encode (literal .single apostrophe) ++ utf8 "\nfx_version 'cerulean'"), 1⟩, none⟩) :=
    toOption_eq_some.mp (by decide +kernel)
  have hvalid : ∀ x ∈ apostrophe, x.Valid .single := by decide
  have hkept : (∀ x ∈ apostrophe, x.kept = true) ∧ "it's\n" ∉ sentinels := by decide
  obtain ⟨m, hm⟩ := Option.isSome_iff_exists.mp hparse
  obtain ⟨-, hfield⟩ := literal_kept_iff wholeNumbers (withScript apostrophe) _ _ .start
    "client_script" .clientScripts rfl .single "it's\n" apostrophe (by decide) hvalid [32] _ none
    1 (gap_space (List.forall_mem_singleton.mpr rfl)) (by simp) scalar_version htake
  obtain ⟨p', out', -, -, -, hall⟩ := hfield.mpr hkept
  exact ⟨⟨m, toOption_eq_some.mp hm⟩, hall⟩

def sentinel : List Piece := "__nil__".toList.map .plain

def accent : List Piece := [.plain 'é']

def decimalEscape : List Piece := [.decimal 65]

/-- A text that looks like a keyword stops the parser, and `é` and `\065` become other texts. -/
theorem literals_changed :
    ((∀ x ∈ sentinel, x.Valid .single) ∧ sentinel.map Piece.char = "__nil__".toList ∧
      (parseFxmanifest wholeNumbers (withScript sentinel)).toOption.map (·.clientScripts) =
        none) ∧
    ((∀ x ∈ accent, x.Valid .single) ∧ accent.map Piece.char = "é".toList ∧
      (parseFxmanifest wholeNumbers (withScript accent)).toOption.map (·.clientScripts) =
        some ["Ã©"]) ∧
    (∀ x ∈ decimalEscape, x.Valid .single) ∧ decimalEscape.map Piece.char = "A".toList ∧
      (parseFxmanifest wholeNumbers (withScript decimalEscape)).toOption.map (·.clientScripts) =
        some ["065"] := by
  have hsentinel : (parseFxmanifest wholeNumbers (withScript sentinel)).toOption.map
      (·.clientScripts) = none := by decide +kernel
  have haccent : (parseFxmanifest wholeNumbers (withScript accent)).toOption.map
      (·.clientScripts) = some ["Ã©"] := by decide +kernel
  have hdecimal : (parseFxmanifest wholeNumbers (withScript decimalEscape)).toOption.map
      (·.clientScripts) = some ["065"] := by decide +kernel
  exact ⟨⟨by decide, by decide, hsentinel⟩, ⟨by decide, by decide, haccent⟩, by decide, by decide,
    hdecimal⟩

end Samples

end Aldivine.Manifests.Fidelity
