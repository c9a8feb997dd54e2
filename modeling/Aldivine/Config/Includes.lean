import Aldivine.Config.Parsing

namespace Aldivine.Config.Includes

open Parsing Syntax

def maxIncludeDepth : ℕ := 16

/-- The file system and the host a resolver works on; whether a path is absolute depends on the
platform. -/
structure IncludeResolver where
  read : String → Option String
  isAbsolute : String → Bool
  environment : String → Option String
  opts : ParseOptions

/-- A call of `fs.read` for an `exec` directive: its target, and the path that was read. -/
structure ExecRead where
  target : String
  path : String
deriving DecidableEq

structure Outcome (α : Type) where
  reads : List ExecRead
  result : Except CfgError α

namespace Outcome

variable {α β : Type}

def bind (x : Outcome α) (f : α → Outcome β) : Outcome β :=
  match x.result with
  | .ok a => ⟨x.reads ++ (f a).reads, (f a).result⟩
  | .error e => ⟨x.reads, .error e⟩

instance : Monad Outcome where
  pure a := ⟨[], .ok a⟩
  bind := bind

def lift (x : Except CfgError α) : Outcome α := ⟨[], x⟩

def ask (read : ExecRead) : Outcome Unit := ⟨[read], .ok ()⟩

end Outcome

def trimDotSlash : List Char → List Char
  | '.' :: '/' :: path => trimDotSlash path
  | path => path

def slash (c : Char) : Char := if c = '\\' then '/' else c

def normalizeOwned (path : String) : String :=
  String.ofList ((trimDotSlash path.toList).map slash)

def isSeparator (c : Char) : Bool := c == '/' || c == '\\'

namespace IncludeResolver

variable (r : IncludeResolver)

def parse (source text : String) : Except CfgError Document :=
  parseDocument r.environment r.opts source text

def checkTarget (target : String) (atLine : BitVec 32) : Except CfgError Unit :=
  if target = "" then .error (.invalidValue atLine "empty exec path")
  else if target.toList.head?.any isSeparator ∨ r.isAbsolute target then
    .error (.includeOutsideRoot atLine target)
  else if (target.toList.splitOnP isSeparator).contains ['.', '.'] then
    .error (.includeTraversal atLine target)
  else .ok ()

def execTarget (line : Line) : Option (Option String) :=
  match line.kind with
  | .directive d => if d.verb = "exec" then some d.firstArg else none
  | _ => none

/-- The loop of `expand`. -/
def expandLines (expandInclude : String → List Line → BitVec 32 → Outcome (List Line))
    (parentLine : BitVec 32) : List (Line × ℕ) → List Line → Outcome (List Line)
  | [], out => pure out
  | (line, i) :: rest, out => do
    let lineNo := BitVec.ofNat 32 i + 1
    match execTarget line with
    | some none =>
      .lift (.error (.wrongArgCount (if parentLine ≤ lineNo then lineNo else parentLine) "exec" 1 0))
    | some (some target) =>
      let out ← expandInclude target out lineNo
      expandLines expandInclude parentLine rest out
    | none => expandLines expandInclude parentLine rest (out ++ [line])

/-- `expand_include` at a depth that leaves `levels` until the limit. -/
def expandInclude : ℕ → List String → String → List Line → BitVec 32 → Outcome (List Line)
  | 0, _, target, _, atLine => do
    .lift (r.checkTarget target atLine)
    .lift (.error (.includeDepthLimit atLine target maxIncludeDepth))
  | levels + 1, chain, target, out, atLine => do
    .lift (r.checkTarget target atLine)
    let norm := normalizeOwned target
    if norm ∈ chain then
      .lift (.error (.includeCycle atLine target (" -> ".intercalate chain)))
    else
      .ask ⟨target, norm⟩
      match r.read norm with
      | none => .lift (.error (.includeMissing atLine norm))
      | some text =>
        let child ← .lift (r.parse norm text)
        expandLines (expandInclude levels (chain ++ [norm])) atLine child.lines.zipIdx out

def resolve (rootPath : String) : Outcome Document := do
  match r.read rootPath with
  | none => .lift (.error (.includeMissing 0 rootPath))
  | some text =>
    let root ← .lift (r.parse rootPath text)
    let out ← expandLines
      (r.expandInclude (maxIncludeDepth - 1) [normalizeOwned rootPath]) 0 root.lines.zipIdx []
    return ⟨rootPath, out⟩

end IncludeResolver

end Aldivine.Config.Includes
