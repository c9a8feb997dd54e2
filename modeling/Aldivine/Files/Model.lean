import Aldivine.Foundation.Text
import Mathlib.Logic.Function.Basic

namespace Aldivine.Files.Model

open Foundation.Text

inductive VfsError
  | badResourceName (name : String)
  | unknownResource (name : String)
  | pathEscape (text : String)
  | absolutePath
  | reservedDevice (name : String)
  | adsNotAllowed (name : String)
  | crossResource (resource caller : String)
  | notFound (text : String)
  | io
deriving DecidableEq

section Paths

inductive Component
  | rootDir
  | curDir
  | parentDir
  | normal (name : String)
deriving DecidableEq

/-- Paths are compared by their components, so that a path is the list of them. -/
abbrev Path := List Component

def Component.ofPart : List Char → Option Component
  | [] => none
  | ['.'] => none
  | ['.', '.'] => some .parentDir
  | part => some (.normal (String.ofList part))

/-- `Path::components`: a `.` counts at the front only. -/
def components (text : String) : Path :=
  let parts := text.toList.splitOn '/'
  let front : Path :=
    if text.toList.head? = some '/' then [.rootDir]
    else if parts.head? = some ['.'] then [.curDir] else []
  front ++ parts.filterMap Component.ofPart

def join (root : Path) (rel : String) : Path :=
  let path := components rel
  if path.head? = some .rootDir ∨ root = [] then path
  else root ++ path.filter (· ≠ .curDir)

def parent (path : Path) : Path := path.dropLast

def pop (path : Path) : Path :=
  if path.getLast? = some .rootDir then path else path.dropLast

def hasRoot (path : Path) : Bool := path.head? == some .rootDir

def Component.text : Component → String
  | .rootDir => ""
  | .curDir => "."
  | .parentDir => ".."
  | .normal name => name

def displayRel (path : Path) : String :=
  if path = [.rootDir] then "/" else "/".intercalate (path.map Component.text)

def normalizeComponent (out : Path) : Component → Path
  | .rootDir => [.rootDir]
  | .curDir => out
  | .parentDir => pop out
  | .normal name => out ++ [.normal name]

def normalizeLexical (path : Path) : Path := path.foldl normalizeComponent []

end Paths

inductive IoKind
  | notFound
  | other
deriving DecidableEq

/-- What the code asks of the host. Links are what makes `canonicalize` more than the identity; a
path it returns is canonical. -/
structure FileSystem where
  canonicalize : Path → Except IoKind Path
  read : Path → Except IoKind (List UInt8)
  canonical : ∀ p c, canonicalize p = .ok c → canonicalize c = .ok c

section Names

def digitsValue (digits : List Char) : ℕ :=
  digits.foldl (fun n c ↦ 10 * n + (c.toNat - '0'.toNat)) 0

def isReservedDeviceName (comp : String) : Bool :=
  let stem := comp.toList.takeWhile (· ≠ ':')
  let trimmed := (stem.reverse.dropWhile (· = ' ')).reverse
  let lower := trimmed.map Char.toLower
  match lower with
  | 'c' :: 'o' :: 'm' :: rest | 'l' :: 'p' :: 't' :: rest =>
    rest.isEmpty || (rest.all Char.isDigit && decide (1 ≤ digitsValue rest) &&
      decide (digitsValue rest ≤ 9))
  | _ =>
    lower ∈ ["con".toList, "prn".toList, "aux".toList, "nul".toList, "conin$".toList,
      "conout$".toList, "$mft".toList, "$log".toList, "$volume".toList]

def validateResourceName (name : String) : Except VfsError Unit :=
  if name = "" ∨ name.utf8ByteSize > 64 then .error (.badResourceName name)
  else if name = "." ∨ name = ".." then .error (.badResourceName name)
  else if ¬name.toList.all (fun c ↦ c.isAlphanum || c ∈ ['_', '-', '.']) then
    .error (.badResourceName name)
  else if isReservedDeviceName name then .error (.reservedDevice name)
  else .ok ()

def splitVirtual (virtualPath : String) : Except VfsError (String × String) :=
  match (trim virtualPath).toList with
  | '@' :: rest => do
    let resource := String.ofList (rest.takeWhile (fun c ↦ c ≠ '/' ∧ c ≠ '\\'))
    let rel := String.ofList ((rest.dropWhile (fun c ↦ c ≠ '/' ∧ c ≠ '\\')).drop 1)
    validateResourceName resource
    return (resource, rel)
  | _ => .error (.pathEscape (trim virtualPath))

def isNormalizedNfc (text : String) : Bool :=
  !text.toList.any (fun c ↦ (0x0300 ≤ c.toNat && c.toNat ≤ 0x036F) || c.toNat == 0x200B ||
    c.toNat == 0x202E)

/-- The depth after each component, or nothing once it is negative. -/
def depthAfter (depth : ℤ) (comp : List Char) : Option ℤ :=
  if comp = [] ∨ comp = ['.'] then some depth
  else if comp = ['.', '.'] then if depth - 1 < 0 then none else some (depth - 1)
  else some (depth + 1)

def sanitizeRelative (rel : String) : Except VfsError String :=
  if rel = "" then .ok ""
  else if ¬rel.toList.all (fun c ↦ c.toNat < 128) ∧ ¬isNormalizedNfc rel then
    .error (.pathEscape rel)
  else if '\x00' ∈ rel.toList then .error (.pathEscape "nul byte")
  else
    let rel := String.ofList (rel.toList.map (fun c ↦ if c = '\\' then '/' else c))
    let comps := rel.toList.splitOn '/'
    if rel.toList.head? = some '/' ∨ (utf8 rel)[1]? = some 58 then .error .absolutePath
    else if ':' ∈ comps.getLastD [] then .error (.adsNotAllowed (String.ofList (comps.getLastD [])))
    else
      match comps.find? (fun comp ↦ isReservedDeviceName (String.ofList comp)) with
      | some comp => .error (.reservedDevice (String.ofList comp))
      | none =>
        match comps.foldlM depthAfter 0 with
        | none => .error (.pathEscape rel)
        | some _ => .ok rel

end Names

section Checks

/-- The loop of `verify_within`. -/
def walk (rel : String) : Bool → Path → Path → Except VfsError Path
  | _, acc, [] => .ok acc
  | atStart, acc, .rootDir :: comps =>
    if atStart then walk rel atStart acc comps else .error .absolutePath
  | atStart, acc, .curDir :: comps => walk rel atStart acc comps
  | _, _, .parentDir :: _ => .error (.pathEscape rel)
  | _, acc, .normal name :: comps => walk rel false (acc ++ [.normal name]) comps

def verifyWithin (root candidate : Path) (rel : String) : Except VfsError Unit := do
  let acc ← walk rel (hasRoot root) root candidate
  if root <+: acc then return ()
  throw (.pathEscape rel)

variable (fs : FileSystem)

/-- It never fails: without a canonical path the lexical one stands in. -/
def canonicalizeOr (path fallback : Path) : Path :=
  match fs.canonicalize path with
  | .ok canonical => canonical
  | .error _ => normalizeLexical fallback

def verifyCanonicalWithin (root target : Path) : Except VfsError Unit :=
  let rootC := canonicalizeOr fs root root
  let targetC := canonicalizeOr fs target target
  if targetC = rootC then .ok ()
  else if ¬rootC <+: targetC then .error (.pathEscape (displayRel targetC))
  else .ok ()

end Checks

structure Mount where
  resource : String
  root : Path
  sharedWith : List String
  writable : Bool

structure Vfs where
  mounts : String → Option Mount

namespace Vfs

def new : Vfs := ⟨fun _ ↦ none⟩

def mount (vfs : Vfs) (fs : FileSystem) (resource : String) (root : Path) (writable : Bool) :
    Except VfsError Vfs := do
  validateResourceName resource
  let canonical := canonicalizeOr fs root root
  return ⟨Function.update vfs.mounts resource (some ⟨resource, canonical, [], writable⟩)⟩

def share (vfs : Vfs) (resource other : String) : Except VfsError Vfs := do
  validateResourceName resource
  validateResourceName other
  match vfs.mounts resource with
  | some m =>
    if other ∈ m.sharedWith then return vfs
    return ⟨Function.update vfs.mounts resource
      (some { m with sharedWith := m.sharedWith ++ [other] })⟩
  | none => throw (.unknownResource resource)

def checkAccess (vfs : Vfs) (resource caller : String) : Except VfsError Unit :=
  if resource = caller then .ok ()
  else
    match vfs.mounts resource with
    | some m =>
      if caller ∈ m.sharedWith then .ok () else .error (.crossResource resource caller)
    | none => .error (.crossResource resource caller)

def resolve (vfs : Vfs) (virtualPath caller : String) : Except VfsError Path := do
  let (resource, raw) ← splitVirtual virtualPath
  let rel ← sanitizeRelative raw
  match vfs.mounts resource with
  | none => throw (.unknownResource resource)
  | some mount =>
    vfs.checkAccess resource caller
    let candidate := join mount.root rel
    verifyWithin mount.root candidate rel
    return candidate

def ioError (target : Path) : IoKind → VfsError
  | .notFound => .notFound (displayRel target)
  | .other => .io

def readResolved (fs : FileSystem) (target : Path) : Except VfsError (List UInt8) := do
  let real ← (fs.canonicalize target).mapError (ioError target)
  verifyCanonicalWithin fs (parent target) real
  (fs.read real).mapError (ioError target)

def read (vfs : Vfs) (fs : FileSystem) (virtualPath caller : String) :
    Except VfsError (List UInt8) := do
  let target ← vfs.resolve virtualPath caller
  readResolved fs target

end Vfs

end Aldivine.Files.Model
