import Aldivine.Dotnet.Reader

namespace Aldivine.Dotnet.Image

open Foundation.Machine Foundation.Checked Foundation.Utf8 Foundation.Wire Tables Reader

structure AssemblyRef where
  name : String
  version : String
  culture : Option String
  publicKeyToken : Option String
  carriesFullKey : Bool
deriving DecidableEq

structure AssemblyIdentity where
  name : String
  version : String
  culture : Option String
  flags : ℕ
  publicKeyToken : Option String
  hasPublicKey : Bool
deriving DecidableEq

structure Pinvoke where
  «module» : String
  function : String
deriving DecidableEq

structure TypeDefInfo where
  «namespace» : String
  name : String
  flags : ℕ
  base : Option String
deriving DecidableEq

structure CliImage where
  runtimeVersion : String
  clrFlags : ℕ
  entryPointToken : ℕ
  moduleName : Option String
  mvid : Option (List UInt8)
  assembly : Option AssemblyIdentity
  references : List AssemblyRef
  tableRows : ℕ → ℕ
  customAttributeTypes : List String
  types : List TypeDefInfo
  pinvokes : List Pinvoke

section Heaps

/-- `b[..].iter().position(|&c| c == 0)`. -/
def zeroAt (bytes : List UInt8) : Option ℕ := bytes.findIdx? (fun c ↦ c == 0)

/-- The part of a heap from an index on, where the index is inside the heap and the file. -/
def heapFrom (b : List UInt8) (place : Option (ℕ × ℕ)) (idx : ℕ) : Option (ℕ × ℕ) := do
  let (off, size) ← place
  let start ← checkedAdd off idx
  let stop ← checkedAdd off size
  if stop ≤ start ∨ b.length < stop then none else some (start, stop)

def readString (b : List UInt8) (s : Streams) (idx : ℕ) : Read (Option String) :=
  if idx = 0 then return some ""
  else
    match heapFrom b s.strings idx with
    | none => return none
    | some (start, stop) => do
      let heap ← sliceRange b start stop
      match zeroAt heap with
      | none => return none
      | some n => do
        let bytes ← sliceRange b start (← plus start n)
        return some (utf8Lossy bytes)

def readGuid (b : List UInt8) (s : Streams) (idx : ℕ) : Read (Option (List UInt8)) :=
  if idx = 0 then return none
  else
    match s.guid with
    | none => return none
    | some (off, size) => do
      match checkedAdd off (← times (← minus idx 1) 16), checkedAdd off size with
      | some start, some stop =>
        let last ← plus start 16
        if stop < last ∨ b.length < last then return none
        else return some (← sliceRange b start last)
      | _, _ => return none

def compressedUint (b : List UInt8) : Option (ℕ × ℕ) :=
  match b with
  | [] => none
  | first :: rest =>
    if first &&& 0x80 = 0 then some (first.toNat, 1)
    else if first &&& 0xc0 = 0x80 then
      match rest with
      | second :: _ => some ((first &&& 0x3f).toNat * 2 ^ 8 + second.toNat, 2)
      | _ => none
    else if first &&& 0xe0 = 0xc0 then
      match rest with
      | r0 :: r1 :: r2 :: _ =>
        some ((first &&& 0x1f).toNat * 2 ^ 24 + r0.toNat * 2 ^ 16 + r1.toNat * 2 ^ 8 + r2.toNat, 4)
      | _ => none
    else none

def readBlob (b : List UInt8) (s : Streams) (idx : ℕ) : Read (Option (List UInt8)) :=
  if idx = 0 then return some []
  else
    match heapFrom b s.blob idx with
    | none => return none
    | some (start, stop) => do
      match compressedUint (← sliceRange b start stop) with
      | none => return none
      | some (len, consumed) => do
        let body ← plus start consumed
        let last ← plus body len
        if stop < last ∨ b.length < last then return none
        else return some (← sliceRange b body last)

def hexLower (bytes : List UInt8) : String := String.join (bytes.map fun c ↦ hex 2 c.toNat)

/-- SHA-1 is from a crate that is not in the repository; its digests are 20 bytes. -/
abbrev Sha1 := List UInt8 → Vector UInt8 20

def publicKeyToken (sha1 : Sha1) (publicKey : List UInt8) : Read (Option String) :=
  if publicKey.isEmpty then return none
  else do
    let digest := (sha1 publicKey).toList
    let tail ← sliceRange digest (← minus digest.length 8) digest.length
    return some (hexLower tail.reverse)

end Heaps

section Columns

variable (b : List UInt8)

/-- `Cursor`: the offset is the state. -/
abbrev Columns (α : Type) := StateT ℕ (Outcome CliError) α

def u16 : Columns ℕ := fun o ↦ do
  let v ← u16At b o
  return (v, ← plus o 2)

def u32 : Columns ℕ := fun o ↦ do
  let v ← u32At b o
  return (v, ← plus o 4)

def idx (size : ℕ) : Columns ℕ := if size = 2 then u16 b else u32 b

def skip (n : ℕ) : Columns Unit := fun o ↦ do
  let stop ← okOr ((checkedAdd o n).filter (fun e ↦ decide (e ≤ b.length)))
    (.malformed "row column past end of file")
  return ((), stop)

def atRow {α : Type} (l : Layout) (t size i : ℕ) (columns : Columns α) : Read α := do
  let o ← plus (l.offsets t) (← times i size)
  columns.run' o

variable (c : Ctx)

def moduleColumns : Columns (ℕ × ℕ) := do
  let _ ← u16 b
  let name ← idx b c.strIdx
  let mvid ← idx b c.guidIdx
  return (name, mvid)

structure Identity where
  version : String
  flags : ℕ
  key : ℕ
  name : ℕ
  culture : ℕ

/-- What the rows of Assembly, behind their first column, and of AssemblyRef have in common. -/
def identityColumns : Columns Identity := do
  let major ← u16 b
  let minor ← u16 b
  let build ← u16 b
  let revision ← u16 b
  let flags ← u32 b
  let key ← idx b c.blobIdx
  let name ← idx b c.strIdx
  let culture ← idx b c.strIdx
  return ⟨toString major ++ "." ++ toString minor ++ "." ++ toString build ++ "." ++
    toString revision, flags, key, name, culture⟩

def assemblyColumns : Columns Identity := do
  let _ ← u32 b
  identityColumns b c

def resolutionScope : ℕ := c.coded 2 [0x00, 0x1a, 0x23, 0x01]

def typeDefOrRef : ℕ := c.coded 2 [0x02, 0x01, 0x1b]

def typeRefColumns : Columns (ℕ × ℕ) := do
  skip b (resolutionScope c)
  let n ← idx b c.strIdx
  let ns ← idx b c.strIdx
  return (n, ns)

def attributeColumns : Columns ℕ := do
  skip b (c.coded 5 hasCustomAttribute)
  idx b (c.coded 3 [0, 0, 0x06, 0x0a, 0])

def memberRefColumns : Columns ℕ := idx b (c.coded 3 [0x02, 0x01, 0x1a, 0x06, 0x1b])

def typeDefNameColumns : Columns (ℕ × ℕ × ℕ) := do
  let flags ← u32 b
  let n ← idx b c.strIdx
  let ns ← idx b c.strIdx
  return (flags, n, ns)

def typeDefColumns : Columns ((ℕ × ℕ × ℕ) × ℕ) := do
  let names ← typeDefNameColumns b c
  let extends' ← idx b (typeDefOrRef c)
  return (names, extends')

def implMapColumns : Columns (ℕ × ℕ) := do
  let _ ← u16 b
  skip b (c.coded 1 [0x04, 0x06])
  let iname ← idx b c.strIdx
  let scope ← idx b (c.simple 0x1a)
  return (iname, scope)

def moduleRefColumns : Columns ℕ := idx b c.strIdx

end Columns

section Assembly

variable (sha1 : Sha1) (b : List UInt8) (l : Layout)

def readModule : Read (Option String × Option (List UInt8)) :=
  if l.ctx.rows 0x00 = 0 then return (none, none)
  else do
    let (name, mvid) ← (moduleColumns b l.ctx).run' (l.offsets 0x00)
    return (← readString b l.streams name, ← readGuid b l.streams mvid)

def stringOrEmpty (idx : ℕ) : Read String := do return (← readString b l.streams idx).getD ""

def nonEmpty (s : Option String) : Option String := s.filter (fun s ↦ !s.isEmpty)

def readIdentity : Read (Option AssemblyIdentity) :=
  if l.ctx.rows 0x20 = 0 then return none
  else do
    let row ← (assemblyColumns b l.ctx).run' (l.offsets 0x20)
    let pk ← readBlob b l.streams row.key
    let name ← stringOrEmpty b l row.name
    let culture ← readString b l.streams row.culture
    let token ← (pk.map (publicKeyToken sha1)).getD (return none)
    return some
      { name, version := row.version, culture := nonEmpty culture, flags := row.flags,
        publicKeyToken := token, hasPublicKey := (pk.map fun k ↦ !k.isEmpty).getD false }

def readReference (references : List AssemblyRef) (i : ℕ) : Read (List AssemblyRef) := do
  let row ← atRow l 0x23 (← rowSize 0x23 l.ctx) i (identityColumns b l.ctx)
  let raw := (← readBlob b l.streams row.key).getD []
  let fullKey := row.flags.testBit 0
  let name ← stringOrEmpty b l row.name
  let culture ← readString b l.streams row.culture
  let token ← if raw.isEmpty then pure none
    else if fullKey then publicKeyToken sha1 raw
    else pure (some (hexLower raw))
  let reference : AssemblyRef :=
    { name, version := row.version, culture := nonEmpty culture, publicKeyToken := token,
      carriesFullKey := fullKey }
  return references ++ [reference]

def qualified (ns name : String) : String := if ns.isEmpty then name else ns ++ "." ++ name

/-- The name that a TypeRef row gives an attribute, added to those seen. -/
def readAttributeName (trSize trRow : ℕ) (seen : List String) : Read (List String) := do
  let (n, ns) ← atRow l 0x01 trSize trRow (typeRefColumns b l.ctx)
  let name ← stringOrEmpty b l n
  let ns ← stringOrEmpty b l ns
  if name.isEmpty then return seen
  else
    let fq := qualified ns name
    if seen.contains fq then return seen else return seen ++ [fq]

def readAttributeClass (mrSize trSize mrRow : ℕ) (seen : List String) : Read (List String) := do
  let class' ← atRow l 0x0a mrSize mrRow (memberRefColumns b l.ctx)
  if class' % 2 ^ 3 ≠ 1 then return seen
  else do
    let trRow ← minus (class' / 2 ^ 3) 1
    if l.ctx.rows 0x01 ≤ trRow then return seen
    else readAttributeName b l trSize trRow seen

def readAttribute (caSize mrSize trSize : ℕ) (seen : List String) (i : ℕ) :
    Read (List String) := do
  let ty ← atRow l 0x0c caSize i (attributeColumns b l.ctx)
  if ty % 2 ^ 3 ≠ 3 then return seen
  else do
    let mrRow ← minus (ty / 2 ^ 3) 1
    if l.ctx.rows 0x0a ≤ mrRow then return seen
    else readAttributeClass b l mrSize trSize mrRow seen

def readAttributes : Read (List String) :=
  if l.ctx.rows 0x0c = 0 ∨ l.ctx.rows 0x01 = 0 then return []
  else do
    let caSize ← rowSize 0x0c l.ctx
    let mrSize ← rowSize 0x0a l.ctx
    let trSize ← rowSize 0x01 l.ctx
    let seen ← (List.range (l.ctx.rows 0x0c)).foldlM (readAttribute b l caSize mrSize trSize) []
    return seen.mergeSort (fun s t ↦ !decide (t < s))

/-- `.ok()?`: an error becomes `None`, a panic stays one. -/
def attempt {α : Type} (x : Read α) : Read (Option α) :=
  match x with
  | .ok a => .ok (some a)
  | .err _ => .ok none
  | .panic => .panic

def joinNsName (ns name : Option String) : Option String :=
  (nonEmpty name).map fun name ↦ ((nonEmpty ns).map fun ns ↦ ns ++ "." ++ name).getD name

/-- The name in a row of TypeDef or TypeRef, where the row is in the table. -/
def rowName (t row : ℕ) (columns : Columns (ℕ × ℕ)) : Read (Option String) :=
  if l.ctx.rows t ≤ row then return none
  else do
    match ← attempt (do atRow l t (← rowSize t l.ctx) row columns) with
    | none => return none
    | some (n, ns) =>
      let ns ← readString b l.streams ns
      return joinNsName ns (← readString b l.streams n)

def typedefOrRefName (coded : ℕ) : Read (Option String) :=
  let tag := coded % 2 ^ 2
  if coded / 2 ^ 2 < 1 then return none
  else
    let row := coded / 2 ^ 2 - 1
    if tag = 0 then
      rowName b l 0x02 row (do
        let (_, n, ns) ← typeDefNameColumns b l.ctx
        return (n, ns))
    else if tag = 1 then rowName b l 0x01 row (typeRefColumns b l.ctx)
    else return none

def readType (tdSize : ℕ) (types : List TypeDefInfo) (i : ℕ) : Read (List TypeDefInfo) := do
  let ((flags, n, ns), extends') ← atRow l 0x02 tdSize i (typeDefColumns b l.ctx)
  let name ← stringOrEmpty b l n
  let «namespace» ← stringOrEmpty b l ns
  let base ← if extends' = 0 then pure none else typedefOrRefName b l extends'
  let type : TypeDefInfo := { «namespace», name, flags, base }
  return types ++ [type]

def readTypes : Read (List TypeDefInfo) :=
  if l.ctx.rows 0x02 = 0 then return []
  else do
    let tdSize ← rowSize 0x02 l.ctx
    (List.range (l.ctx.rows 0x02)).foldlM (readType b l tdSize) []

def readPinvoke (imSize mrSize : ℕ) (pinvokes : List Pinvoke) (i : ℕ) : Read (List Pinvoke) := do
  let (iname, scope) ← atRow l 0x1c imSize i (implMapColumns b l.ctx)
  if scope = 0 ∨ l.ctx.rows 0x1a < scope then return pinvokes
  else do
    let mname ← atRow l 0x1a mrSize (← minus scope 1) (moduleRefColumns b l.ctx)
    let «module» ← stringOrEmpty b l mname
    let function ← stringOrEmpty b l iname
    if «module».isEmpty || function.isEmpty then return pinvokes
    else
      let pinvoke : Pinvoke := { «module», function }
      return pinvokes ++ [pinvoke]

def readPinvokes : Read (List Pinvoke) :=
  if l.ctx.rows 0x1c = 0 ∨ l.ctx.rows 0x1a = 0 then return []
  else do
    let imSize ← rowSize 0x1c l.ctx
    let mrSize ← rowSize 0x1a l.ctx
    (List.range (l.ctx.rows 0x1c)).foldlM (readPinvoke b l imSize mrSize) []

/-- `read_metadata` behind the walk over the tables. -/
def readImage (clrFlags entryPointToken : ℕ) : Read CliImage := do
  let (moduleName, mvid) ← readModule b l
  let assembly ← readIdentity sha1 b l
  let references ← (List.range (l.ctx.rows 0x23)).foldlM (readReference sha1 b l) []
  let customAttributeTypes ← readAttributes b l
  let types ← readTypes b l
  let pinvokes ← readPinvokes b l
  return { runtimeVersion := l.runtimeVersion, clrFlags, entryPointToken, moduleName, mvid, assembly,
           references, tableRows := l.ctx.rows, customAttributeTypes, types, pinvokes }

/-- The headers of a file, as far as the walk over its tables. -/
def readHeaders (b : List UInt8) : Read (Layout × CliHeader) := do
  let pe ← readPeHeaders b
  let cliOff ← rvaToOffset b pe pe.cliRva
  let cli ← readCliHeader b cliOff
  let mdOff ← rvaToOffset b pe cli.metadataRva
  return (← readLayout b mdOff, cli)

def readAssembly : Read CliImage := do
  let (l, cli) ← readHeaders b
  readImage sha1 b l cli.flags cli.entryPointToken

end Assembly

end Aldivine.Dotnet.Image
