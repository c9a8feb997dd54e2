import Aldivine.Foundation.Checked
import Mathlib.Logic.Function.Basic

namespace Aldivine.Dotnet.Tables

open Foundation.Machine Foundation.Checked

inductive CliError
  | notPe
  | notCli
  | malformed (text : String)
  | unsupportedTable (t : ℕ)
deriving DecidableEq

abbrev Read (α : Type) := Outcome CliError α

/-- Lower-case hexadecimal digits, with zeros in front up to the width. -/
def hex (width n : ℕ) : String :=
  let digits := Nat.toDigits 16 n
  String.ofList (List.replicate (width - digits.length) '0' ++ digits)

/-- The row count of a table is 0 when the table is not present. -/
structure Ctx where
  stringsBig : Bool
  guidBig : Bool
  blobBig : Bool
  rows : ℕ → ℕ

namespace Ctx

def ofHeapSizes (heapSizes : UInt8) (rows : ℕ → ℕ) : Ctx where
  stringsBig := decide (heapSizes &&& 0x01 ≠ 0)
  guidBig := decide (heapSizes &&& 0x02 ≠ 0)
  blobBig := decide (heapSizes &&& 0x04 ≠ 0)
  rows := rows

variable (c : Ctx)

def strIdx : ℕ := if c.stringsBig then 4 else 2

def guidIdx : ℕ := if c.guidBig then 4 else 2

def blobIdx : ℕ := if c.blobBig then 4 else 2

def simple (t : ℕ) : ℕ := if 0x10000 ≤ c.rows t then 4 else 2

/-- Table 0 is not counted: it stands for the Module table, and for tags without a table. -/
def coded (tagBits : ℕ) (tables : List ℕ) : ℕ :=
  let max := tables.foldl (fun max t ↦ if t = 0 then max else Nat.max max (c.rows t)) 0
  if max < 2 ^ (16 - tagBits) then 2 else 4

end Ctx

def hasCustomAttribute : List ℕ :=
  [0x06, 0x04, 0x01, 0x02, 0x08, 0x09, 0x0a, 0x00, 0x0e, 0x17, 0x14, 0x11, 0x1a, 0x1b, 0x20, 0x23,
    0x26, 0x27, 0x28, 0x2a, 0x2b, 0x2c]

def rowSize (t : ℕ) (c : Ctx) : Read ℕ :=
  let s := c.strIdx
  let g := c.guidIdx
  let bl := c.blobIdx
  match t with
  | 0x00 => return 2 + s + g + g + g
  | 0x01 => return c.coded 2 [0x00, 0x1a, 0x23, 0x01] + s + s
  | 0x02 => return 4 + s + s + c.coded 2 [0x02, 0x01, 0x1b] + c.simple 0x04 + c.simple 0x06
  | 0x03 => return c.simple 0x04
  | 0x04 => return 2 + s + bl
  | 0x05 => return c.simple 0x06
  | 0x06 => return 4 + 2 + 2 + s + bl + c.simple 0x08
  | 0x07 => return c.simple 0x08
  | 0x08 => return 2 + 2 + s
  | 0x09 => return c.simple 0x02 + c.coded 2 [0x02, 0x01, 0x1b]
  | 0x0a => return c.coded 3 [0x02, 0x01, 0x1a, 0x06, 0x1b] + s + bl
  | 0x0b => return 1 + 1 + c.coded 2 [0x04, 0x08, 0x17] + bl
  | 0x0c => return c.coded 5 hasCustomAttribute + c.coded 3 [0, 0, 0x06, 0x0a, 0] + bl
  | 0x0d => return c.coded 1 [0x04, 0x08] + bl
  | 0x0e => return 2 + c.coded 2 [0x02, 0x06, 0x20] + bl
  | 0x0f => return 2 + 4 + c.simple 0x02
  | 0x10 => return 4 + c.simple 0x04
  | 0x11 => return bl
  | 0x12 => return c.simple 0x02 + c.simple 0x14
  | 0x13 => return c.simple 0x14
  | 0x14 => return 2 + s + c.coded 2 [0x02, 0x01, 0x1b]
  | 0x15 => return c.simple 0x02 + c.simple 0x17
  | 0x16 => return c.simple 0x17
  | 0x17 => return 2 + s + bl
  | 0x18 => return 2 + c.simple 0x06 + c.coded 1 [0x14, 0x17]
  | 0x19 => return c.simple 0x02 + c.coded 1 [0x06, 0x0a] + c.coded 1 [0x06, 0x0a]
  | 0x1a => return s
  | 0x1b => return bl
  | 0x1c => return 2 + c.coded 1 [0x04, 0x06] + s + c.simple 0x1a
  | 0x1d => return 4 + c.simple 0x04
  | 0x1e => return 4 + 4
  | 0x1f => return 4
  | 0x20 => return 4 + 2 + 2 + 2 + 2 + 4 + bl + s + s
  | 0x21 => return 4 + 4 + 4
  | 0x22 => return 4
  | 0x23 => return 2 + 2 + 2 + 2 + 4 + bl + s + s + bl
  | 0x24 => return 4 + 4 + 4 + c.simple 0x23
  | 0x25 => return 4 + c.simple 0x23
  | 0x26 => return 4 + s + bl
  | 0x27 => return 4 + 4 + s + s + c.coded 2 [0x26, 0x27, 0x02]
  | 0x28 => return 4 + 4 + s + c.coded 2 [0x26, 0x27, 0x02]
  | 0x29 => return c.simple 0x02 + c.simple 0x02
  | 0x2a => return 2 + 2 + c.coded 1 [0x02, 0x06] + s
  | 0x2b => return c.coded 1 [0x06, 0x0a] + bl
  | 0x2c => return c.simple 0x2a + c.coded 2 [0x02, 0x01, 0x1b]
  | other => .err (.unsupportedTable other)

structure Walk where
  offsets : ℕ → ℕ
  cursor : ℕ

/-- One round of the loop in `read_metadata` that finds where each table starts. -/
def walkTable (len : ℕ) (valid : BitVec 64) (c : Ctx) (w : Walk) (t : ℕ) : Read Walk :=
  if valid.getLsbD t = false then return w
  else do
    let rs ← rowSize t c
    let size ← times rs (c.rows t)
    let cursor ← okOr (checkedAdd w.cursor size) (.malformed "table walk overflowed")
    refuse (len < cursor) (.malformed ("table 0x" ++ hex 2 t ++ " extends past end of file"))
    return ⟨Function.update w.offsets t w.cursor, cursor⟩

def walk (len : ℕ) (valid : BitVec 64) (c : Ctx) (start : ℕ) : Read Walk :=
  (List.range 64).foldlM (walkTable len valid c) ⟨fun _ ↦ 0, start⟩

end Aldivine.Dotnet.Tables
