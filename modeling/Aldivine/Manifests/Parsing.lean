import Aldivine.Manifests.Lexing

namespace Aldivine.Manifests.Parsing

open Foundation.Fallible Foundation.Text Foundation.Utf8 Lexing Model

structure Parser (F : Type) where
  lex : Lexer
  peeked : Option (Tok F)
deriving DecidableEq

section Tokens

variable {F : Type} (host : Host F) (p : Parser F)

def Parser.new (src : String) : Parser F := ⟨⟨utf8 src, 1⟩, none⟩

def Parser.peek : Except ManifestError (Option (Tok F) × Parser F) :=
  match p.peeked with
  | some tok => .ok (some tok, p)
  | none => do
    let (tok, lex) ← next host p.lex
    return (tok, ⟨lex, tok⟩)

def Parser.take : Except ManifestError (Option (Tok F) × Parser F) :=
  match p.peeked with
  | some tok => .ok (some tok, ⟨p.lex, none⟩)
  | none => do
    let (tok, lex) ← next host p.lex
    return (tok, ⟨lex, none⟩)

def Parser.consume : Parser F := ⟨p.lex, none⟩

def Parser.size : ℕ := p.lex.rest.length + if p.peeked.isSome then 1 else 0

variable {host p} {q : Parser F} {tok : Option (Tok F)} {t : Tok F}

theorem Parser.peek_size (h : p.peek host = .ok (tok, q)) : q.size ≤ p.size := by
  unfold peek at h
  split at h
  · cases h
    exact le_rfl
  · rename_i hpeeked
    obtain ⟨⟨tok', lex⟩, hnext, heq⟩ := bind_eq_ok.mp h
    cases heq
    rw [size, size, hpeeked]
    cases tok with
    | none => exact next_none_length hnext
    | some t => exact next_length hnext

theorem Parser.consume_size (h : p.peek host = .ok (some t, q)) : q.consume.size < p.size := by
  unfold peek at h
  split at h
  · rename_i tok' hpeeked
    cases h
    rw [size, size, hpeeked]
    exact Nat.lt_succ_self _
  · rename_i hpeeked
    obtain ⟨⟨tok', lex⟩, hnext, heq⟩ := bind_eq_ok.mp h
    cases heq
    rw [size, size, hpeeked]
    exact next_length hnext

theorem Parser.take_size (h : p.take host = .ok (some t, q)) : q.size < p.size := by
  unfold take at h
  split at h
  · rename_i tok' hpeeked
    cases h
    rw [size, size, hpeeked]
    exact Nat.lt_succ_self _
  · rename_i hpeeked
    obtain ⟨⟨tok', lex⟩, hnext, heq⟩ := bind_eq_ok.mp h
    cases heq
    rw [size, size, hpeeked]
    exact next_length hnext

end Tokens

section Values

variable {F : Type} (host : Host F)

def decodeLiteral (text : String) : ManifestValue F :=
  match text with
  | "__bool_true__" => .bool true
  | "__bool_false__" => .bool false
  | "__nil__" => .nil
  | text => .str text

def decodeNumber (n : F) : ManifestValue F :=
  match host.asInt n with
  | some i => .int i
  | none => .float n

mutual

def parseValue (p : Parser F) :
    Except ManifestError (ManifestValue F × { q : Parser F // q.size < p.size }) :=
  match htake : p.take host with
  | .error e => .error e
  | .ok (none, q) => .error (.syntaxError q.lex.line "unexpected end of manifest")
  | .ok (some (.str text), q) => .ok (decodeLiteral text, ⟨q, Parser.take_size htake⟩)
  | .ok (some (.num n), q) => .ok (decodeNumber host n, ⟨q, Parser.take_size htake⟩)
  | .ok (some .lBrace, q) => do
    let (value, ⟨r, hr⟩) ← parseTable q [] 1
    return (value, ⟨r, hr.trans (Parser.take_size htake)⟩)
  | .ok (some (.ident id), q) =>
    .error (.syntaxError q.lex.line ("bare identifier `" ++ id ++ "` is not a valid value"))
  | .ok (some other, q) =>
    .error (.syntaxError q.lex.line ("unexpected token " ++ host.debug other))
termination_by 3 * p.size
decreasing_by
  have hsize := Parser.take_size htake
  omega

/-- One entry of a table, where neither a comma nor the closing brace is next. -/
def parseEntry (p : Parser F) (nextKey : ℕ) :
    Except ManifestError ((String × ManifestValue F) × ℕ × { q : Parser F // q.size < p.size }) :=
  match hpeek : p.peek host with
  | .error e => .error e
  | .ok (some (.ident id), q) =>
    match hafter : q.consume.peek host with
    | .error e => .error e
    | .ok (some .assign, r) => do
      let (value, ⟨s, hs⟩) ← parseValue r.consume
      return ((id, value), nextKey,
        ⟨s, hs.trans ((Parser.consume_size hafter).trans (Parser.consume_size hpeek))⟩)
    | .ok _ =>
      .error (.syntaxError q.lex.line ("bare identifier `" ++ id ++ "` inside table"))
  | .ok (_, q) => do
    let (value, ⟨r, hr⟩) ← parseValue q
    return ((toString nextKey, value), nextKey + 1, ⟨r, hr.trans_le (Parser.peek_size hpeek)⟩)
termination_by 3 * p.size + 1
decreasing_by
  · have hsize := (Parser.consume_size hafter).trans (Parser.consume_size hpeek)
    omega
  · have hsize := Parser.peek_size hpeek
    omega

def parseTable (p : Parser F) (map : List (String × ManifestValue F)) (nextKey : ℕ) :
    Except ManifestError (ManifestValue F × { q : Parser F // q.size < p.size }) :=
  match hpeek : p.peek host with
  | .error e => .error e
  | .ok (some .comma, q) => do
    let (value, ⟨r, hr⟩) ← parseTable q.consume map nextKey
    return (value, ⟨r, hr.trans (Parser.consume_size hpeek)⟩)
  | .ok (some .rBrace, q) => .ok (.table map, ⟨q.consume, Parser.consume_size hpeek⟩)
  | .ok (_, q) => do
    let (entry, nextKey, ⟨r, hr⟩) ← parseEntry q nextKey
    match hsep : r.peek host with
    | .error e => .error e
    | .ok (some .comma, s) => do
      let (value, ⟨t, ht⟩) ← parseTable s.consume (map ++ [entry]) nextKey
      return (value, ⟨t, ht.trans ((Parser.consume_size hsep).trans
        (hr.trans_le (Parser.peek_size hpeek)))⟩)
    | .ok (some .rBrace, s) =>
      .ok (.table (map ++ [entry]),
        ⟨s.consume, (Parser.consume_size hsep).trans (hr.trans_le (Parser.peek_size hpeek))⟩)
    | .ok (_, s) => .error (.syntaxError s.lex.line "expected `,` or `\x7d` in table")
termination_by 3 * p.size + 2
decreasing_by
  · have hsize := Parser.consume_size hpeek
    omega
  · have hsize := Parser.peek_size hpeek
    omega
  · have hsize := (Parser.consume_size hsep).trans (hr.trans_le (Parser.peek_size hpeek))
    omega

end

end Values

section Manifests

variable {F : Type} (host : Host F)

/-- The `=` between a directive and its value is optional. -/
def skipAssign (p : Parser F) : Except ManifestError { q : Parser F // q.size ≤ p.size } :=
  match hpeek : p.peek host with
  | .error e => .error e
  | .ok (some .assign, q) => .ok ⟨q.consume, (Parser.consume_size hpeek).le⟩
  | .ok (_, q) => .ok ⟨q, Parser.peek_size hpeek⟩

def foldTable (value : ManifestValue F) (p : Parser F) :
    Except ManifestError (ManifestValue F × { q : Parser F // q.size ≤ p.size }) :=
  match value with
  | .str text =>
    match hpeek : p.peek host with
    | .error e => .error e
    | .ok (some .lBrace, q) => do
      let (table, ⟨r, hr⟩) ← parseValue host q
      return (.table [("1", .str text), ("2", table)],
        ⟨r, (hr.trans_le (Parser.peek_size hpeek)).le⟩)
    | .ok (_, q) => .ok (.str text, ⟨q, Parser.peek_size hpeek⟩)
  | value => .ok (value, ⟨p, le_rfl⟩)

def parseDirective (p : Parser F) (out : NormalizedManifest F) :
    Except ManifestError (Option ({ q : Parser F // q.size < p.size } × NormalizedManifest F)) :=
  match htake : p.take host with
  | .error e => .error e
  | .ok (none, _) => .ok none
  | .ok (some (.ident name), q) => do
    let ⟨r, hr⟩ ← skipAssign host q
    let (value, ⟨s, hs⟩) ← parseValue host r
    let (value, ⟨t, ht⟩) ← foldTable host value s
    let out ← applyDirective host out name value q.lex.line
    return some (⟨t, ht.trans_lt (hs.trans_le (hr.trans (Parser.take_size htake).le))⟩, out)
  | .ok (some other, q) =>
    .error (.syntaxError q.lex.line ("expected directive name, found " ++ host.debug other))

def parseManifest (p : Parser F) (out : NormalizedManifest F) :
    Except ManifestError (NormalizedManifest F) :=
  match parseDirective host p out with
  | .error e => .error e
  | .ok none =>
    if out.fxVersion.isNone ∧ out.resourceManifestVersion.isNone then
      .error (.missingRequired "fx_version (or resource_manifest_version)")
    else .ok out
  | .ok (some (⟨q, _hq⟩, out)) => parseManifest q out
termination_by p.size
decreasing_by exact _hq

def parseFxmanifest (src : String) : Except ManifestError (NormalizedManifest F) :=
  parseManifest host (Parser.new src) {}

end Manifests

end Aldivine.Manifests.Parsing
