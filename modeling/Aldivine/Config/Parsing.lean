import Mathlib.Data.List.Infix
import Mathlib.Data.Nat.Notation
import Aldivine.Foundation.Fallible
import Aldivine.Foundation.Utf8

namespace Aldivine.Config.Syntax

inductive CfgError
  | unterminatedString (line col : BitVec 32)
  | wrongArgCount (line : BitVec 32) (verb : String) (expected got : ℕ)
  | unknownDirective (line : BitVec 32) (verb allowed : String)
  | invalidValue (line : BitVec 32) (reason : String)
  | unknownEnvVar (line : BitVec 32) (name : String)
  | includeOutsideRoot (line : BitVec 32) (path : String)
  | includeTraversal (line : BitVec 32) (path : String)
  | includeMissing (line : BitVec 32) (path : String)
  | includeDepthLimit (line : BitVec 32) (path : String) (limit : ℕ)
  | includeCycle (line : BitVec 32) (path chain : String)
deriving DecidableEq

def knownDirectives : List String :=
  ["set", "setr", "sets", "set_secret", "exec", "ensure", "start", "stop", "restart",
    "sv_hostname", "sv_projectName", "sv_projectDesc", "sv_maxclients", "sv_endpoint",
    "endpoint_add_tcp", "endpoint_add_udp", "sv_tags", "sv_locale", "sv_icon", "sv_gameBuild",
    "sv_public", "sv_listing", "sv_licenseKey", "ald_projectId", "ald_serverId", "ald_licenseKey",
    "license_mode", "add_ace", "remove_ace", "add_principal", "remove_principal"]

def isKnown (verb : String) : Bool := decide (verb ∈ knownDirectives)

inductive Value
  | bare (text : String)
  | quoted (text : String)
deriving DecidableEq

structure Directive where
  verb : String
  args : List Value
  rawArgCount : ℕ
deriving DecidableEq

inductive LineKind
  | comment (text : String)
  | blank
  | directive (d : Directive)
deriving DecidableEq

structure Line where
  lineNo : BitVec 32
  indent : String
  kind : LineKind
deriving DecidableEq

structure Document where
  source : String
  lines : List Line
deriving DecidableEq

def Value.asStr : Value → String
  | .bare text => text
  | .quoted text => text

/-- `escape`: backslashes first, then quotes. -/
def escape (text : List Char) : List Char :=
  (text.flatMap (fun c ↦ if c = '\\' then ['\\', '\\'] else [c])).flatMap
    (fun c ↦ if c = '"' then ['\\', '"'] else [c])

def Value.render : Value → String
  | .bare text => text
  | .quoted text => "\"" ++ String.ofList (escape text.toList) ++ "\""

def Directive.firstArg (d : Directive) : Option String := d.args.head?.map Value.asStr

def Directive.render (d : Directive) : String :=
  d.args.foldl (fun out a ↦ out ++ " " ++ a.render) d.verb

def LineKind.render : LineKind → String
  | .comment text => text
  | .blank => ""
  | .directive d => d.render

def Line.render (l : Line) : String := l.indent ++ l.kind.render ++ "\n"

def Document.render (doc : Document) : String := doc.lines.foldl (fun out l ↦ out ++ l.render) ""

end Aldivine.Config.Syntax

namespace Aldivine.Config.Parsing

open Foundation.Fallible Foundation.Text Foundation.Utf8 Syntax

inductive EnvExpansion
  | disabled
  | enabled
deriving DecidableEq

structure ParseOptions where
  env : EnvExpansion
  strictVerbs : Bool

section Tokens

def isAsciiWhitespace (b : UInt8) : Bool := b == 9 || b == 10 || b == 12 || b == 13 || b == 32

def isBareByte (b : UInt8) : Bool := !isAsciiWhitespace b

def isVerbByte (b : UInt8) : Bool := !isAsciiWhitespace b && b != 34

/-- `from_utf8_lossy`. The bytes are cut from a text at ASCII bytes, so that nothing is lost. -/
def fromUtf8Lossy (bytes : List UInt8) : String := (ofUtf8 bytes).getD "\uFFFD"

inductive Token
  | bare (text : String)
  | quoted (text : String)
deriving DecidableEq

def skipWs (rest : List UInt8) : List UInt8 := rest.dropWhile isAsciiWhitespace

def unescape (b : UInt8) : Char :=
  if b = 110 then '\n' else if b = 116 then '\t' else if b = 114 then '\r' else asChar b

/-- The loop of `read_quoted`, behind the opening quote. -/
def readQuoted (line col : BitVec 32) :
    List Char → List UInt8 → Except CfgError (List Char × List UInt8)
  | _, [] => .error (.unterminatedString line col)
  | out, 34 :: rest => .ok (out, rest)
  | _, [92] => .error (.unterminatedString line col)
  | out, 92 :: esc :: rest => readQuoted line col (out ++ [unescape esc]) rest
  | out, c :: rest => readQuoted line col (out ++ [asChar c]) rest

def nextBare (line : BitVec 32) (bytes : List UInt8) :
    Except CfgError (Option (String × List UInt8)) :=
  let rest := skipWs bytes
  if rest = [] then .ok none
  else
    let token := rest.takeWhile isVerbByte
    if token = [] then
      .error (.invalidValue line "directive verb must be an unquoted token")
    else .ok (some (fromUtf8Lossy token, rest.dropWhile isVerbByte))

/-- The next argument and the bytes behind it; the whole line has `len` bytes. -/
def nextToken (line : BitVec 32) (len : ℕ) (bytes : List UInt8) :
    Except CfgError (Option (Token × List UInt8)) :=
  match skipWs bytes with
  | [] => .ok none
  | 34 :: rest => do
    let (text, rest) ← readQuoted line (BitVec.ofNat 32 (len - (rest.length + 1)) + 1) [] rest
    return some (.quoted (String.ofList text), rest)
  | rest => .ok (some (.bare (fromUtf8Lossy (rest.takeWhile isBareByte)),
      rest.dropWhile isBareByte))

theorem readQuoted_length {line col : BitVec 32} {out text : List Char}
    {bytes rest : List UInt8} (h : readQuoted line col out bytes = .ok (text, rest)) :
    rest.length < bytes.length := by
  fun_induction readQuoted line col out bytes with
  | case1 => cases h
  | case2 out tail =>
    cases h
    exact Nat.lt_succ_self _
  | case3 => cases h
  | case4 out esc tail ih => exact (ih h).trans (Nat.lt_add_of_pos_right Nat.two_pos)
  | case5 out c tail _ _ _ ih => exact (ih h).trans (Nat.lt_succ_self _)

theorem skipWs_head {bytes tail : List UInt8} {b : UInt8} (h : skipWs bytes = b :: tail) :
    isAsciiWhitespace b = false := by
  have hhead := List.head?_dropWhile_not isAsciiWhitespace bytes
  rw [show bytes.dropWhile isAsciiWhitespace = b :: tail from h] at hhead
  simpa using hhead

theorem nextToken_length {line : BitVec 32} {len : ℕ} {bytes rest : List UInt8} {token : Token}
    (h : nextToken line len bytes = .ok (some (token, rest))) : rest.length < bytes.length := by
  have hle : (skipWs bytes).length ≤ bytes.length := (List.dropWhile_sublist _).length_le
  unfold nextToken at h
  split at h
  · cases h
  · rename_i tail htail
    obtain ⟨⟨text, rest'⟩, hread, hrest⟩ := bind_eq_ok.mp h
    cases hrest
    rw [htail, List.length_cons] at hle
    exact (readQuoted_length hread).trans (Nat.lt_of_succ_le hle)
  · cases h
    cases hskip : skipWs bytes with
    | nil => contradiction
    | cons b tail =>
      -- the token has at least the byte it begins with
      have hbare : isBareByte b = true := by rw [isBareByte, skipWs_head hskip]; rfl
      rw [hskip, List.length_cons] at hle
      rw [List.dropWhile_cons_of_pos hbare]
      exact (List.dropWhile_sublist _).length_le.trans_lt (Nat.lt_of_succ_le hle)

end Tokens

section Lines

variable (environment : String → Option String) (opts : ParseOptions)

/-- The loop of `expand_env`. -/
def expandBytes (line : BitVec 32) (out : List Char) : List UInt8 → Except CfgError (List Char)
  | [] => .ok out
  | b :: rest =>
    if b = 36 ∧ rest.head? = some 123 ∧ 125 ∈ rest.drop 1 then
      let name := fromUtf8Lossy ((rest.drop 1).takeWhile (· ≠ 125))
      match environment name with
      | some value =>
        expandBytes line (out ++ value.toList) (((rest.drop 1).dropWhile (· ≠ 125)).drop 1)
      | none => .error (.unknownEnvVar line name)
    else expandBytes line (out ++ [asChar b]) rest
termination_by bytes => bytes.length
decreasing_by
  · have hle := (List.dropWhile_sublist (l := rest.drop 1) (fun b ↦ decide (b ≠ 125))).length_le
    simp only [List.length_drop, List.length_cons] at hle ⊢
    omega
  · exact Nat.lt_succ_self _

def expandEnv (line : BitVec 32) (text : String) : Except CfgError String :=
  if opts.env = .disabled ∨ ¬['$', '\x7b'] <:+: text.toList then .ok text
  else (expandBytes environment line [] (utf8 text)).map String.ofList

def expandToken (line : BitVec 32) : Token → Except CfgError Value
  | .bare text => (expandEnv environment opts line text).map .bare
  | .quoted text => (expandEnv environment opts line text).map .quoted

def readArgs (line : BitVec 32) (len : ℕ) (bytes : List UInt8) : Except CfgError (List Value) :=
  match _hnext : nextToken line len bytes with
  | .error e => .error e
  | .ok none => .ok []
  | .ok (some (token, rest)) => do
    let value ← expandToken environment opts line token
    let values ← readArgs line len rest
    return value :: values
termination_by bytes.length
decreasing_by exact nextToken_length _hnext

def trimCr (text : List Char) : List Char := (text.reverse.dropWhile (· = '\r')).reverse

def isComment (body : List Char) : Bool :=
  body.head? == some '#' || ['/', '/'].isPrefixOf body

def parseLine (lineNo : BitVec 32) (raw : List Char) : Except CfgError Line :=
  let indent := String.ofList (raw.takeWhile isWhitespace)
  let body := trimCr (raw.dropWhile isWhitespace)
  let bytes := utf8 (String.ofList body)
  if body = [] then .ok ⟨lineNo, indent, .blank⟩
  else if isComment body then .ok ⟨lineNo, indent, .comment (String.ofList body)⟩
  else do
    match ← nextBare lineNo bytes with
    | none => return ⟨lineNo, indent, .blank⟩
    | some (verb, rest) =>
      if opts.strictVerbs ∧ ¬isKnown verb then
        throw (.unknownDirective lineNo verb (", ".intercalate knownDirectives))
      let args ← readArgs environment opts lineNo bytes.length rest
      return ⟨lineNo, indent, .directive ⟨verb, args, args.length⟩⟩

/-- The lines of a text; the empty segment behind a last newline is none. -/
def segments (text : List Char) : List (List Char) :=
  let segs := text.splitOn '\n'
  let last := if segs.length > 1 ∧ segs.getLast? = some [] then segs.length - 1 else segs.length
  if last = 0 then [[]] else segs.take last

theorem segments_eq (text : List Char) :
    segments text = [[]] ∨ ∃ k ≠ 0, segments text = (text.splitOn '\n').take k := by
  unfold segments
  dsimp only
  generalize (if (text.splitOn '\n').length > 1 ∧ (text.splitOn '\n').getLast? = some [] then
    (text.splitOn '\n').length - 1 else (text.splitOn '\n').length) = last
  split
  · exact .inl rfl
  · rename_i hlast
    exact .inr ⟨last, hlast, rfl⟩

theorem segments_ne_nil (text : List Char) : segments text ≠ [] := by
  rcases segments_eq text with h | ⟨k, hk, h⟩
  · rw [h]
    exact List.cons_ne_nil _ _
  · rw [h, ne_eq, List.take_eq_nil_iff, not_or]
    exact ⟨hk, List.splitOn_ne_nil _ _⟩

def parseDocument (source text : String) : Except CfgError Document := do
  let lines ← (segments text.toList).zipIdx.mapM
    (fun (raw, idx) ↦ parseLine environment opts (BitVec.ofNat 32 idx + 1) raw)
  return ⟨source, lines⟩

end Lines

end Aldivine.Config.Parsing
