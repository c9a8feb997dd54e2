import Aldivine.Dotnet.Tables
import Aldivine.Foundation.Text
import Aldivine.Foundation.Utf8
import Aldivine.Foundation.Wire

namespace Aldivine.Dotnet.Reader

open Foundation.Machine Foundation.Checked Foundation.Text Foundation.Utf8 Foundation.Wire Tables

section Words

/-- The `width` bytes at `o`, as a little-endian number. -/
def wordAt (name : String) (width : ℕ) (b : List UInt8) (o : ℕ) : Read ℕ := do
  let stop ← plus o width
  let s ← okOr (getRange b o stop) (.malformed (name ++ " at " ++ toString o ++ " out of bounds"))
  return ofLE s

def u16At : List UInt8 → ℕ → Read ℕ := wordAt "u16" 2

def u32At : List UInt8 → ℕ → Read ℕ := wordAt "u32" 4

def u64At : List UInt8 → ℕ → Read ℕ := wordAt "u64" 8

def align4 (p : ℕ) : Read ℕ := do
  let q ← plus p 3
  return q / 4 * 4

end Words

section Headers

structure Section where
  virtualAddress : ℕ
  virtualSize : ℕ
  pointerToRawData : ℕ
  sizeOfRawData : ℕ
deriving DecidableEq

structure PeHeaders where
  sections : List Section
  sizeOfHeaders : ℕ
  cliRva : ℕ
deriving DecidableEq

def readSection (b : List UInt8) (secOff : ℕ) (sections : List Section) (i : ℕ) :
    Read (List Section) := do
  let s ← plus secOff (← times i 40)
  let stop ← plus s 40
  refuse (b.length < stop) (.malformed "section table truncated")
  let virtualSize ← u32At b (← plus s 8)
  let virtualAddress ← u32At b (← plus s 12)
  let sizeOfRawData ← u32At b (← plus s 16)
  let pointerToRawData ← u32At b (← plus s 20)
  let read : Section := { virtualAddress, virtualSize, pointerToRawData, sizeOfRawData }
  return sections ++ [read]

/-- Where the data directories start and how many there are, by the magic number. -/
def readDirectories (b : List UInt8) (opt magic : ℕ) : Read (ℕ × ℕ) :=
  if magic = 0x10b then do return (← plus opt 96, ← u32At b (← plus opt 92))
  else if magic = 0x20b then do return (← plus opt 112, ← u32At b (← plus opt 108))
  else .err (.malformed ("unknown optional header magic 0x" ++ hex 4 magic))

def readPeHeaders (b : List UInt8) : Read PeHeaders := do
  refuse (b.length < 0x40 ∨ b[0]? ≠ some 0x4D ∨ b[1]? ≠ some 0x5A) .notPe
  let eLfanew ← u32At b 0x3c
  let coff ← plus eLfanew 4
  refuse (getRange b eLfanew coff ≠ some [0x50, 0x45, 0, 0]) .notPe
  let numberOfSections ← u16At b (← plus coff 2)
  let sizeOfOptionalHeader ← u16At b (← plus coff 16)
  let opt ← plus coff 20
  let magic ← u16At b opt
  let (dirsOff, dirCount) ← readDirectories b opt magic
  let sizeOfHeaders ← u32At b (← plus opt 60)
  refuse (dirCount ≤ 14) .notCli
  let cliRva ← u32At b (← plus dirsOff (14 * 8))
  let cliSize ← u32At b (← plus (← plus dirsOff (14 * 8)) 4)
  refuse (cliRva = 0 ∨ cliSize = 0) .notCli
  let secOff ← plus opt sizeOfOptionalHeader
  let sections ← (List.range numberOfSections).foldlM (readSection b secOff) []
  return { sections, sizeOfHeaders, cliRva }

def saturatingAdd (a b : ℕ) : ℕ := min (a + b) (2 ^ 32 - 1)

def offsetInSections (b : List UInt8) (rva : ℕ) : List Section → Read ℕ
  | [] => .err (.malformed ("RVA 0x" ++ hex 0 rva ++ " not in any section"))
  | s :: rest =>
    let span := max s.virtualSize s.sizeOfRawData
    if s.virtualAddress ≤ rva ∧ rva < saturatingAdd s.virtualAddress span then do
      let inside ← minus rva s.virtualAddress
      let off ← plus s.pointerToRawData inside
      refuse (b.length ≤ off) (.malformed "RVA maps past end of file")
      return off
    else offsetInSections b rva rest

def rvaToOffset (b : List UInt8) (pe : PeHeaders) (rva : ℕ) : Read ℕ :=
  if rva < pe.sizeOfHeaders then return rva else offsetInSections b rva pe.sections

structure CliHeader where
  flags : ℕ
  entryPointToken : ℕ
  metadataRva : ℕ
  metadataSize : ℕ
deriving DecidableEq

def readCliHeader (b : List UInt8) (off : ℕ) : Read CliHeader := do
  let stop ← plus off 72
  refuse (b.length < stop) (.malformed "CLI header truncated")
  let metadataRva ← u32At b (← plus off 8)
  let metadataSize ← u32At b (← plus off 12)
  let flags ← u32At b (← plus off 16)
  let entryPointToken ← u32At b (← plus off 20)
  return { flags, entryPointToken, metadataRva, metadataSize }

end Headers

section Metadata

structure Streams where
  tables : Option (ℕ × ℕ)
  strings : Option (ℕ × ℕ)
  guid : Option (ℕ × ℕ)
  blob : Option (ℕ × ℕ)
deriving DecidableEq

def Streams.record (s : Streams) (name : String) (place : ℕ × ℕ) : Streams :=
  if name = "#~" ∨ name = "#-" then { s with tables := some place }
  else if name = "#Strings" then { s with strings := some place }
  else if name = "#GUID" then { s with guid := some place }
  else if name = "#Blob" then { s with blob := some place }
  else s

/-- One stream header at `p`, and where the next one is. -/
def readStream (b : List UInt8) (off : ℕ) (x : ℕ × Streams) (_ : ℕ) : Read (ℕ × Streams) := do
  let (p, streams) := x
  let sOff ← u32At b p
  let sSize ← u32At b (← plus p 4)
  let nameStart ← plus p 8
  let found := (getRange b nameStart b.length).bind (List.findIdx? (fun c ↦ c == 0))
  let nameLength ← okOr found (.malformed "stream name unterminated")
  let nameEnd ← plus nameStart nameLength
  let nameBytes ← sliceRange b nameStart nameEnd
  let name ← okOr (ofUtf8 nameBytes) (.malformed "stream name not utf-8")
  let abs ← plus off sOff
  let _ ← okOr ((checkedAdd abs sSize).filter (fun stop ↦ decide (stop ≤ b.length)))
    (.malformed ("stream " ++ name ++ " out of file bounds"))
  let afterName ← plus nameEnd 1
  return (← align4 afterName, streams.record name (abs, sSize))

/-- One round of the loop in `read_tables_header`. -/
def readRowCount (b : List UInt8) (valid : BitVec 64) (x : ℕ × (ℕ → ℕ)) (t : ℕ) :
    Read (ℕ × (ℕ → ℕ)) :=
  if valid.getLsbD t = false then return x
  else do
    let count ← u32At b x.1
    return (← plus x.1 4, Function.update x.2 t count)

def readTablesHeader (b : List UInt8) (off : ℕ) : Read (UInt8 × BitVec 64 × (ℕ → ℕ)) := do
  let stop ← plus off 24
  refuse (b.length < stop) (.malformed "#~ header truncated")
  let heapSizes ← index b (← plus off 6)
  let valid ← u64At b (← plus off 8)
  let valid := BitVec.ofNat 64 valid
  let (_, rows) ← (List.range 64).foldlM (readRowCount b valid) (stop, fun _ ↦ 0)
  return (heapSizes, valid, rows)

/-- What is known of a file once every table has been found. -/
structure Layout where
  runtimeVersion : String
  streams : Streams
  ctx : Ctx
  offsets : ℕ → ℕ

def readVersion (b : List UInt8) (off : ℕ) : Read (String × ℕ) := do
  let stop ← plus off 16
  refuse (b.length < stop) (.malformed "metadata root truncated")
  refuse ((← u32At b off) ≠ 0x424a5342) (.malformed "bad metadata signature (expected BSJB)")
  let verLen ← u32At b (← plus off 12)
  refuse (verLen = 0 ∨ 256 < verLen) (.malformed ("implausible version length " ++ toString verLen))
  let verEnd ← plus stop verLen
  let verBytes ← okOr (getRange b stop verEnd) (.malformed "version string truncated")
  let text ← sliceRange verBytes 0 ((verBytes.findIdx? (fun c ↦ c == 0)).getD verBytes.length)
  return (utf8Lossy text, verEnd)

/-- `read_metadata` up to the walk over the tables. -/
def readLayout (b : List UInt8) (off : ℕ) : Read Layout := do
  let (runtimeVersion, verEnd) ← readVersion b off
  let p ← align4 verEnd
  let streamCount ← u16At b (← plus p 2)
  let p ← plus p 4
  let (_, streams) ← (List.range streamCount).foldlM (readStream b off)
    (p, { tables := none, strings := none, guid := none, blob := none })
  let (tOff, _) ← okOr streams.tables (.malformed "no #~ metadata tables stream")
  let (heapSizes, valid, rows) ← readTablesHeader b tOff
  let ctx := Ctx.ofHeapSizes heapSizes rows
  let count := (List.range 64).countP valid.getLsbD
  let start ← plus (← plus tOff 24) (← times count 4)
  let w ← walk b.length valid ctx start
  return { runtimeVersion, streams, ctx, offsets := w.offsets }

end Metadata

end Aldivine.Dotnet.Reader
