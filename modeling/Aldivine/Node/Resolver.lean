import Aldivine.Foundation.SemVer
import Aldivine.Foundation.Text
import Mathlib.Data.List.DropRight

namespace Aldivine.Node.Resolver

open Foundation.SemVer (cut)
open Foundation.Text (ofUtf8)

abbrev Path := List Char

inductive NodeError
  | packageJson (text : String)
  | notFound (spec : Path)
deriving DecidableEq

/-- What the deserializer makes of a `package.json`, of which only two fields matter here. -/
structure Raw where
  name : String
  main : Option String

/-- `serde_json::from_str`, with its error text. -/
abbrev FromStr := String → Except String Raw

structure PackageJson where
  name : String
  main : Option String

def parsePackageJson (fromStr : FromStr) (src : String) : Except NodeError PackageJson := do
  let raw ← (fromStr src).mapError .packageJson
  if raw.name = "" then .error (.packageJson "missing \x60name\x60")
  else .ok ⟨raw.name, raw.main⟩

structure NodeFileSource where
  read : Path → Option (List UInt8)
  isDir : Path → Bool

inductive ResolveKind
  | javaScript
  | json
  | nativeAddon
deriving DecidableEq

structure Resolved where
  path : Path
  kind : ResolveKind
  fromNodeModules : Bool
deriving DecidableEq

def probeExts : List (Path × ResolveKind) :=
  [(".js".toList, .javaScript), (".json".toList, .json), (".node".toList, .nativeAddon)]

structure Probing (α : Type) where
  value : α
  probes : List Path
deriving DecidableEq

namespace Probing

variable {α β : Type}

instance : Monad Probing where
  pure a := ⟨a, []⟩
  bind x f := ⟨(f x.value).value, x.probes ++ (f x.value).probes⟩

@[simp] theorem value_pure (a : α) : (pure a : Probing α).value = a := rfl

@[simp] theorem probes_pure (a : α) : (pure a : Probing α).probes = [] := rfl

@[simp] theorem value_bind (x : Probing α) (f : α → Probing β) :
    (x >>= f).value = (f x.value).value := rfl

@[simp] theorem probes_bind (x : Probing α) (f : α → Probing β) :
    (x >>= f).probes = x.probes ++ (f x.value).probes := rfl

end Probing

def trimSlash (p : Path) : Path :=
  if p = ['/'] then ['/'] else p.rdropWhile (· == '/')

def parentOf (dir : Path) : Path :=
  let d := trimSlash dir
  if d = ['/'] ∨ d = [] then ['/']
  else
    match d.reverse.dropWhile (· ≠ '/') with
    -- the last slash comes first here, before what is the parent read backwards
    | [] => ['/']
    | _ :: [] => ['/']
    | _ :: parent => parent.reverse

def joinSegment (parts : List Path) (seg : Path) : List Path :=
  if seg = [] ∨ seg = ['.'] then parts
  else if seg = ['.', '.'] then parts.dropLast
  else parts ++ [seg]

def join (dir rel : Path) : Path :=
  let parts := ((trimSlash dir).splitOn '/').filter (· ≠ [])
  '/' :: ['/'].intercalate ((rel.splitOn '/').foldl joinSegment parts)

/-- From the last dot of the last segment on. -/
def extOf (path : Path) : Option Path :=
  let name := (path.splitOn '/').getLastD path
  if '.' ∈ name then some ('.' :: (name.splitOn '.').getLastD name) else none

section Loading

variable (fromStr : FromStr) (fs : NodeFileSource)

def read (path : Path) : Probing (Option (List UInt8)) := ⟨fs.read path, [path]⟩

def isDir (path : Path) : Probing Bool := ⟨fs.isDir path, [path]⟩

@[simp] theorem value_read (path : Path) : (read fs path).value = fs.read path := rfl

@[simp] theorem probes_read (path : Path) : (read fs path).probes = [path] := rfl

@[simp] theorem value_isDir (path : Path) : (isDir fs path).value = fs.isDir path := rfl

@[simp] theorem probes_isDir (path : Path) : (isDir fs path).probes = [path] := rfl

def exactFile (base : Path) (fromNodeModules : Bool) : Probing (Option Resolved) := do
  let found ← read fs base
  let kind : ResolveKind :=
    if extOf base = some ".json".toList then .json
    else if extOf base = some ".node".toList then .nativeAddon
    else .javaScript
  return found.map (fun _ ↦ ⟨base, kind, fromNodeModules⟩)

def probe (stem : Path) (fromNodeModules : Bool) :
    List (Path × ResolveKind) → Probing (Option Resolved)
  | [] => return none
  | (ext, kind) :: exts => do
    let cand := stem ++ ext
    match ← read fs cand with
    | some _ => return some ⟨cand, kind, fromNodeModules⟩
    | none => probe stem fromNodeModules exts

def asFile (base : Path) (fromNodeModules : Bool) : Probing (Option Resolved) := do
  match ← exactFile fs base fromNodeModules with
  | some found => return some found
  | none => probe fs base fromNodeModules probeExts

/-- Where the `package.json` of a directory leads, if it can be read and has a main. -/
def mainTarget (base : Path) : Probing (Option Path) := do
  let pj ← read fs (trimSlash base ++ "/package.json".toList)
  return do
    let src ← ofUtf8 (← pj)
    let pkg ← (parsePackageJson fromStr src).toOption
    let main ← pkg.main
    return join base main.toList

def asIndex (base : Path) (fromNodeModules : Bool) : Probing (Option Resolved) :=
  probe fs (trimSlash base ++ "/index".toList) fromNodeModules probeExts

/-- What comes back, if anything does before the fuel is used up. -/
def loadAsFileOrDir (fromNodeModules : Bool) : ℕ → Path → Probing (Option (Option Resolved))
  | 0, _ => return none
  | fuel + 1, base => do
    match ← asFile fs base fromNodeModules with
    | some found => return some (some found)
    | none =>
      if ← isDir fs base then
        match ← mainTarget fromStr fs base with
        | none => return some (← asIndex fs base fromNodeModules)
        | some target =>
          match ← loadAsFileOrDir fromNodeModules fuel target with
          | none => return none
          | some (some found) => return some (some found)
          -- main present but unresolvable: fall through to index
          | some none => return some (← asIndex fs base fromNodeModules)
      else return some none

def packageOf (spec : Path) : Option (Path × Option Path) :=
  let (first, next) := cut '/' spec
  if first.head? = some '@' then
    next.map (fun secondAndRest ↦
      let (second, rest) := cut '/' secondAndRest
      (first ++ '/' :: second, rest))
  else some (first, next)

def targetIn (pkgName : Path) (rest : Option Path) (dir : Path) : Path :=
  let root := trimSlash dir ++ "/node_modules/".toList ++ pkgName
  match rest with
  | some r => root ++ '/' :: r
  | none => root

/-- The loop over `dir`, each round of which may use `fuel`. -/
def walk (fuel : ℕ) (spec pkgName : Path) (rest : Option Path) :
    ℕ → Path → Probing (Option (Except NodeError Resolved))
  | 0, _ => return none
  | rounds + 1, dir => do
    match ← loadAsFileOrDir fromStr fs true fuel (targetIn pkgName rest dir) with
    | none => return none
    | some (some found) => return some (.ok found)
    | some none =>
      let parent := parentOf dir
      if parent = dir then return some (.error (.notFound spec))
      else walk fuel spec pkgName rest rounds parent

def isRelative (spec : Path) : Bool :=
  "./".toList.isPrefixOf spec || "../".toList.isPrefixOf spec || spec == ".".toList ||
    spec == "..".toList

def isAbsolute (spec : Path) : Bool := "/".toList.isPrefixOf spec

def resolve (fuel : ℕ) (spec fromDir : Path) : Probing (Option (Except NodeError Resolved)) := do
  if spec = [] then return some (.error (.notFound spec))
  else if isRelative spec || isAbsolute spec then
    let base := if isAbsolute spec then spec else join fromDir spec
    let found ← loadAsFileOrDir fromStr fs false fuel base
    return found.map (·.elim (.error (.notFound spec)) .ok)
  else
    match packageOf spec with
    | none => return some (.error (.notFound spec))
    | some (pkgName, rest) =>
      if pkgName = [] then return some (.error (.notFound spec))
      else walk fromStr fs fuel spec pkgName rest fuel fromDir

end Loading

end Aldivine.Node.Resolver
