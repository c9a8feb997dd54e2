import Aldivine.Foundation.Grammars

namespace Aldivine.Foundation.MessagePack

open Wire Grammars

/-- Floats are their bit patterns, and text is whatever bytes it was written with. -/
inductive Object
  | nil
  | bool (b : Bool)
  | int (i : ℤ)
  | float32 (bits : BitVec 32)
  | float64 (bits : BitVec 64)
  | str (text : List UInt8)
  | bin (data : List UInt8)
  | array (items : List Object)
  | map (entries : List (Object × Object))
  | ext (type : BitVec 8) (data : List UInt8)

namespace Object

/-- Induction where containers give the hypothesis for each of their members. -/
@[elab_as_elim] theorem induct {P : Object → Prop}
    (leaf : ∀ o, (∀ items, o ≠ .array items) → (∀ entries, o ≠ .map entries) → P o)
    (array : ∀ items, (∀ o ∈ items, P o) → P (.array items))
    (map : ∀ entries, (∀ e ∈ entries, P e.1 ∧ P e.2) → P (.map entries)) (o : Object) : P o := by
  refine @Object.rec P (fun items ↦ ∀ o ∈ items, P o)
    (fun entries ↦ ∀ e ∈ entries, P e.1 ∧ P e.2) (fun e ↦ P e.1 ∧ P e.2)
    ?_ ?_ ?_ ?_ ?_ ?_ ?_ array map ?_ (by simp) ?_ (by simp) ?_ (fun _ _ ↦ And.intro) o
  case refine_9 => exact fun o os ho hos ↦ List.forall_mem_cons.mpr ⟨ho, hos⟩
  case refine_10 => exact fun e es he hes ↦ List.forall_mem_cons.mpr ⟨he, hes⟩
  all_goals
    intros
    apply leaf <;> exact fun _ h ↦ Object.noConfusion h

mutual

/-- Every object inside `o`, itself included, satisfies `p`. -/
def all (p : Object → Bool) : Object → Bool
  | .array items => p (.array items) && allItems p items
  | .map entries => p (.map entries) && allEntries p entries
  | o => p o

def allItems (p : Object → Bool) : List Object → Bool
  | [] => true
  | o :: os => o.all p && allItems p os

def allEntries (p : Object → Bool) : List (Object × Object) → Bool
  | [] => true
  | (k, v) :: es => k.all p && v.all p && allEntries p es

end

variable {p : Object → Bool}

theorem allItems_iff {items : List Object} :
    allItems p items = true ↔ ∀ o ∈ items, o.all p = true := by
  induction items with
  | nil => simp [allItems]
  | cons o os ih => simp [allItems, ih]

theorem allEntries_iff {entries : List (Object × Object)} :
    allEntries p entries = true ↔ ∀ e ∈ entries, e.1.all p = true ∧ e.2.all p = true := by
  induction entries with
  | nil => simp [allEntries]
  | cons e es ih =>
    obtain ⟨k, v⟩ := e
    simp [allEntries, ih]

theorem all_array_iff {items : List Object} :
    (Object.array items).all p = true ↔
      p (.array items) = true ∧ ∀ o ∈ items, o.all p = true := by
  rw [← allItems_iff]
  exact Bool.and_eq_true_iff

theorem all_map_iff {entries : List (Object × Object)} :
    (Object.map entries).all p = true ↔
      p (.map entries) = true ∧ ∀ e ∈ entries, e.1.all p = true ∧ e.2.all p = true := by
  rw [← allEntries_iff]
  exact Bool.and_eq_true_iff

theorem all_mono {q : Object → Bool} (hpq : ∀ o, p o = true → q o = true) (o : Object)
    (h : o.all p = true) : o.all q = true := by
  induction o using Object.induct with
  | leaf o harray hmap =>
    cases o with
    | array items => exact absurd rfl (harray items)
    | map entries => exact absurd rfl (hmap entries)
    | _ => exact hpq _ h
  | array items ih =>
    obtain ⟨hself, hitems⟩ := all_array_iff.mp h
    exact all_array_iff.mpr ⟨hpq _ hself, fun o ho ↦ ih o ho (hitems o ho)⟩
  | map entries ih =>
    obtain ⟨hself, hentries⟩ := all_map_iff.mp h
    refine all_map_iff.mpr ⟨hpq _ hself, fun e he ↦ ?_⟩
    exact ⟨(ih e he).1 (hentries e he).1, (ih e he).2 (hentries e he).2⟩

end Object

/-- A length is part of the first byte, or stands in the `k` bytes behind it. -/
inductive Size
  | given (n : ℕ)
  | field (k : ℕ)

def Size.Writes : Size → Grammar ℕ
  | .given m => fun n bytes ↦ n = m ∧ bytes = []
  | .field k => Word k

inductive Format
  | nil
  | bool (b : Bool)
  | fixint (i : ℤ)
  | uint (k : ℕ)
  | int (k : ℕ)
  | float32
  | float64
  | str (size : Size)
  | bin (size : Size)
  | array (size : Size)
  | map (size : Size)
  | ext (size : Size)

/-- The table of first bytes. -/
def format (tag : UInt8) : Option Format :=
  match tag with
  | 0xC0 => some .nil
  | 0xC1 => none -- never used
  | 0xC2 => some (.bool false)
  | 0xC3 => some (.bool true)
  | 0xC4 => some (.bin (.field 1))
  | 0xC5 => some (.bin (.field 2))
  | 0xC6 => some (.bin (.field 4))
  | 0xC7 => some (.ext (.field 1))
  | 0xC8 => some (.ext (.field 2))
  | 0xC9 => some (.ext (.field 4))
  | 0xCA => some .float32
  | 0xCB => some .float64
  | 0xCC => some (.uint 1)
  | 0xCD => some (.uint 2)
  | 0xCE => some (.uint 4)
  | 0xCF => some (.uint 8)
  | 0xD0 => some (.int 1)
  | 0xD1 => some (.int 2)
  | 0xD2 => some (.int 4)
  | 0xD3 => some (.int 8)
  | 0xD4 => some (.ext (.given 1))
  | 0xD5 => some (.ext (.given 2))
  | 0xD6 => some (.ext (.given 4))
  | 0xD7 => some (.ext (.given 8))
  | 0xD8 => some (.ext (.given 16))
  | 0xD9 => some (.str (.field 1))
  | 0xDA => some (.str (.field 2))
  | 0xDB => some (.str (.field 4))
  | 0xDC => some (.array (.field 2))
  | 0xDD => some (.array (.field 4))
  | 0xDE => some (.map (.field 2))
  | 0xDF => some (.map (.field 4))
  | tag =>
    if tag < 0x80 then some (.fixint tag.toNat)
    else if tag < 0x90 then some (.map (.given (tag.toNat - 0x80)))
    else if tag < 0xA0 then some (.array (.given (tag.toNat - 0x90)))
    else if tag < 0xC0 then some (.str (.given (tag.toNat - 0xA0)))
    else some (.fixint (tag.toNat - 0x100))

/-- The well-formed objects. Every format that has room for an object may be chosen for it. -/
inductive Encodes : Grammar Object
  | nil {tag : UInt8} (h : format tag = some .nil) : Encodes .nil [tag]
  | bool {tag : UInt8} {b : Bool} (h : format tag = some (.bool b)) : Encodes (.bool b) [tag]
  | fixint {tag : UInt8} {i : ℤ} (h : format tag = some (.fixint i)) : Encodes (.int i) [tag]
  | uint {tag : UInt8} {k : ℕ} (h : format tag = some (.uint k)) (x : BitVec (8 * k)) :
      Encodes (.int x.toNat) (tag :: toBE k x.toNat)
  | int {tag : UInt8} {k : ℕ} (h : format tag = some (.int k)) (x : BitVec (8 * k)) :
      Encodes (.int x.toInt) (tag :: toBE k x.toNat)
  | float32 {tag : UInt8} (h : format tag = some .float32) (x : BitVec 32) :
      Encodes (.float32 x) (tag :: toBE 4 x.toNat)
  | float64 {tag : UInt8} (h : format tag = some .float64) (x : BitVec 64) :
      Encodes (.float64 x) (tag :: toBE 8 x.toNat)
  | str {tag : UInt8} {size : Size} {text length : List UInt8} (h : format tag = some (.str size))
      (hlength : size.Writes text.length length) : Encodes (.str text) (tag :: (length ++ text))
  | bin {tag : UInt8} {size : Size} {data length : List UInt8} (h : format tag = some (.bin size))
      (hlength : size.Writes data.length length) : Encodes (.bin data) (tag :: (length ++ data))
  | array {tag : UInt8} {size : Size} {items : List Object} {length body : List UInt8}
      (h : format tag = some (.array size)) (hlength : size.Writes items.length length)
      (hitems : Sequence Encodes items body) : Encodes (.array items) (tag :: (length ++ body))
  | map {tag : UInt8} {size : Size} {entries : List (Object × Object)} {length body : List UInt8}
      (h : format tag = some (.map size)) (hlength : size.Writes entries.length length)
      (hentries : Sequence Encodes (entries.flatMap (fun e ↦ [e.1, e.2])) body) :
      Encodes (.map entries) (tag :: (length ++ body))
  | ext {tag : UInt8} {size : Size} {type : BitVec 8} {data length : List UInt8}
      (h : format tag = some (.ext size)) (hlength : size.Writes data.length length) :
      Encodes (.ext type data) (tag :: (length ++ UInt8.ofBitVec type :: data))

section Body

/-- A word of `k` bytes, the most significant one first. -/
def Bits (w k : ℕ) : Grammar (BitVec w) := fun x bytes ↦ bytes = toBE k x.toNat

def Raw (n : ℕ) : Grammar (List UInt8) := fun data bytes ↦ data.length = n ∧ bytes = data

def TypeByte : Grammar (BitVec 8) := fun type bytes ↦ bytes = [UInt8.ofBitVec type]

def Body : Format → Grammar Object
  | .nil => fun o bytes ↦ o = .nil ∧ bytes = []
  | .bool b => fun o bytes ↦ o = .bool b ∧ bytes = []
  | .fixint i => fun o bytes ↦ o = .int i ∧ bytes = []
  | .uint k => Image (fun x ↦ .int x.toNat) (Bits (8 * k) k)
  | .int k => Image (fun x ↦ .int x.toInt) (Bits (8 * k) k)
  | .float32 => Image .float32 (Bits 32 4)
  | .float64 => Image .float64 (Bits 64 8)
  | .str size => Behind size.Writes (fun n ↦ Image .str (Raw n))
  | .bin size => Behind size.Writes (fun n ↦ Image .bin (Raw n))
  | .array size => Behind size.Writes (fun n ↦
      Image .array (fun items bytes ↦ items.length = n ∧ Sequence Encodes items bytes))
  | .map size => Behind size.Writes (fun n ↦
      Image .map (fun entries bytes ↦
        entries.length = n ∧ Sequence (Both Encodes Encodes) entries bytes))
  | .ext size => Behind size.Writes (fun n ↦
      Image (fun p ↦ .ext p.1 p.2) (Both TypeByte (Raw n)))

theorem not_encodes_nil (o : Object) : ¬Encodes o [] := by
  intro h
  cases h

theorem encodes_cons {o : Object} {tag : UInt8} {bytes : List UInt8} :
    Encodes o (tag :: bytes) ↔ ∃ F, format tag = some F ∧ Body F o bytes := by
  constructor
  · intro h
    cases h with
    | nil h => exact ⟨_, h, rfl, rfl⟩
    | bool h => exact ⟨_, h, rfl, rfl⟩
    | fixint h => exact ⟨_, h, rfl, rfl⟩
    | uint h x => exact ⟨_, h, x, rfl, rfl⟩
    | int h x => exact ⟨_, h, x, rfl, rfl⟩
    | float32 h x => exact ⟨_, h, x, rfl, rfl⟩
    | float64 h x => exact ⟨_, h, x, rfl, rfl⟩
    | str h hlength => exact ⟨_, h, _, _, _, hlength, ⟨_, rfl, rfl, rfl⟩, rfl⟩
    | bin h hlength => exact ⟨_, h, _, _, _, hlength, ⟨_, rfl, rfl, rfl⟩, rfl⟩
    | array h hlength hitems => exact ⟨_, h, _, _, _, hlength, ⟨_, rfl, rfl, hitems⟩, rfl⟩
    | map h hlength hentries =>
      exact ⟨_, h, _, _, _, hlength, ⟨_, rfl, rfl, sequence_both.mpr hentries⟩, rfl⟩
    | ext h hlength =>
      exact ⟨_, h, _, _, _, hlength, ⟨(_, _), rfl, _, _, rfl, ⟨rfl, rfl⟩, rfl⟩, rfl⟩
  · intro hout
    obtain ⟨F, h, hbody⟩ := hout
    cases F with
    | nil => obtain ⟨rfl, rfl⟩ := hbody; exact .nil h
    | bool b => obtain ⟨rfl, rfl⟩ := hbody; exact .bool h
    | fixint i => obtain ⟨rfl, rfl⟩ := hbody; exact .fixint h
    | uint k => obtain ⟨x, rfl, rfl⟩ := hbody; exact .uint h x
    | int k => obtain ⟨x, rfl, rfl⟩ := hbody; exact .int h x
    | float32 => obtain ⟨x, rfl, rfl⟩ := hbody; exact .float32 h x
    | float64 => obtain ⟨x, rfl, rfl⟩ := hbody; exact .float64 h x
    | str size =>
      obtain ⟨n, length, tail, hlength, ⟨text, rfl, rfl, rfl⟩, rfl⟩ := hbody
      exact .str h hlength
    | bin size =>
      obtain ⟨n, length, tail, hlength, ⟨data, rfl, rfl, rfl⟩, rfl⟩ := hbody
      exact .bin h hlength
    | array size =>
      obtain ⟨n, length, tail, hlength, ⟨items, rfl, rfl, hitems⟩, rfl⟩ := hbody
      exact .array h hlength hitems
    | map size =>
      obtain ⟨n, length, tail, hlength, ⟨entries, rfl, rfl, hentries⟩, rfl⟩ := hbody
      exact .map h hlength (sequence_both.mp hentries)
    | ext size =>
      obtain ⟨n, length, tail, hlength, ⟨p, rfl, head, data, rfl, ⟨rfl, rfl⟩, rfl⟩, rfl⟩ := hbody
      exact .ext h hlength

theorem encodes_of_format {tag : UInt8} {F : Format} (h : format tag = some F) (o : Object)
    (bytes : List UInt8) : Encodes o (tag :: bytes) ↔ Body F o bytes := by
  rw [encodes_cons]
  constructor
  · intro hout
    obtain ⟨F', hF', hbody⟩ := hout
    obtain rfl := Option.some.inj (h.symm.trans hF')
    exact hbody
  · exact fun hbody ↦ ⟨F, h, hbody⟩

end Body

end Aldivine.Foundation.MessagePack
