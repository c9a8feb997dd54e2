import Aldivine.Foundation.MessagePack
import Aldivine.Serialization.RoundTrip

namespace Aldivine.Serialization.Foreign

open Foundation.Text Foundation.Wire Foundation.Grammars Foundation.MessagePack
open Core.Error Value Unpack RoundTrip

def component (data : List UInt8) (i : ℕ) : BitVec 32 :=
  BitVec.ofNat 32 (ofBE (slice data (4 * i) 4))

def extValue (type : BitVec 8) (data : List UInt8) : CfxValue :=
  let x := component data
  if type = Ext.vector2 ∧ data.length = 8 then .vector2 (x 0) (x 1)
  else if type = Ext.vector3 ∧ data.length = 12 then .vector3 (x 0) (x 1) (x 2)
  else if type = Ext.vector4 ∧ data.length = 16 then .vector4 (x 0) (x 1) (x 2) (x 3)
  else if type = Ext.quaternion ∧ data.length = 16 then .quat (x 0) (x 1) (x 2) (x 3)
  else .ext type data

section Meaning

variable (int : ℤ → Option CfxValue)

mutual

def meaning : Object → Option CfxValue
  | .nil => some .nil
  | .bool b => some (.bool b)
  | .int i => int i
  | .float32 bits => some (.float (widen bits))
  | .float64 bits => some (.float bits)
  | .str text => (ofUtf8 text).map .str
  | .bin data => some (.bin data)
  | .array items => (meaningItems items).map .array
  | .map entries => (meaningEntries entries).map .map
  | .ext type data => some (extValue type data)

def meaningItems : List Object → Option (List CfxValue)
  | [] => some []
  | o :: os => (meaning o).bind (fun v ↦ (meaningItems os).map (v :: ·))

def meaningEntries : List (Object × Object) → Option (List (CfxValue × CfxValue))
  | [] => some []
  | (k, v) :: es =>
    (meaning k).bind (fun key ↦ (meaning v).bind (fun value ↦
      (meaningEntries es).map ((key, value) :: ·)))

end

theorem meaningItems_eq (items : List Object) :
    meaningItems int items = items.mapM (meaning int) := by
  induction items with
  | nil => rfl
  | cons o os ih => rw [meaningItems, ih, Decodes.mapM_cons]

theorem meaningEntries_eq (entries : List (Object × Object)) :
    meaningEntries int entries = entries.mapM (fun e ↦
      (meaning int e.1).bind (fun key ↦ (meaning int e.2).map (Prod.mk key))) := by
  induction entries with
  | nil => rfl
  | cons e es ih =>
    obtain ⟨k, v⟩ := e
    rw [meaningEntries, ih, Decodes.mapM_cons]
    cases meaning int k with
    | none => rfl
    | some key => cases meaning int v <;> rfl

end Meaning

def exactInt (i : ℤ) : Option CfxValue :=
  if -2 ^ 63 ≤ i ∧ i < 2 ^ 63 then some (.int (BitVec.ofInt 64 i)) else none

/-- What the specification says an object stands for. -/
def denote : Object → Option CfxValue := meaning exactInt

/-- What the decoder makes of it: the low 64 bits. -/
def decoded : Object → Option CfxValue := meaning (fun i ↦ some (.int (BitVec.ofInt 64 i)))

section Fields

variable {n : ℕ}

theorem decodes_readWord {w k : ℕ} (hw : 256 ^ k = 2 ^ w) :
    Decodes n (Bits w k) some (readWord w k) := by
  constructor
  · intro x bytes hx _
    rw [hx]
    exact parses_word_toNat hw x
  · intro c x c' hc heq
    obtain ⟨taken, d, hr, hpure⟩ := run_bind_eq_ok.mp heq
    obtain ⟨_, bytes, ⟨hlen, rfl⟩, rfl⟩ := (Decodes.takeBytes _ k).sound c taken d hc hr
    obtain rfl : bytes = taken := by
      have hparse := parses_takeBytes (AldError.protocol "msgpack field overruns buffer") hlen d
      exact congrArg Prod.fst (Except.ok.inj (hparse.symm.trans hr))
    cases hpure
    have hlt : ofBE bytes < 2 ^ w := by
      rw [← hw, ← hlen]
      exact ofBE_lt bytes
    refine ⟨BitVec.ofNat w (ofBE bytes), bytes, ?_, rfl⟩
    rw [Bits, BitVec.toNat_ofNat, Nat.mod_eq_of_lt hlt, ← hlen, toBE_ofBE]

theorem toBE_byte (b : UInt8) : toBE 1 b.toBitVec.toNat = [b] := by
  simp [toBE]

theorem decodes_readU8 : Decodes n (Bits 8 1) some (UInt8.toBitVec <$> readU8) := by
  have hbyte : Decodes n (fun b bytes ↦ bytes = [b]) (fun b ↦ some (UInt8.toBitVec b))
      (UInt8.toBitVec <$> readU8) := (Decodes.readByte _).map UInt8.toBitVec
  refine (hbyte.image UInt8.toBitVec (fun _ _ _ ↦ rfl)).congr (fun x bytes ↦ ?_)
  constructor
  · intro h
    exact ⟨UInt8.ofBitVec x, rfl, h.trans (toBE_byte (UInt8.ofBitVec x))⟩
  · intro h
    obtain ⟨b, rfl, rfl⟩ := h
    exact (toBE_byte b).symm

end Fields

section Formats

variable {n : ℕ}

theorem decodes_integer {w k : ℕ} {r : Cursor (BitVec w)} (value : BitVec w → ℤ)
    (g : BitVec w → BitVec 64) (h : Decodes n (Bits w k) some r)
    (hg : ∀ x, BitVec.ofInt 64 (value x) = g x) :
    Decodes n (Image (fun x ↦ .int (value x)) (Bits w k)) decoded
      ((fun x ↦ CfxValue.int (g x)) <$> r) := by
  refine (h.map (fun x ↦ CfxValue.int (g x))).image (fun x ↦ Object.int (value x)) (fun x _ _ ↦ ?_)
  rw [decoded, meaning, hg]
  rfl

theorem decodes_float {w k : ℕ} {r : Cursor (BitVec w)} (c : BitVec w → Object)
    (g : BitVec w → BitVec 64) (h : Decodes n (Bits w k) some r)
    (hc : ∀ x, decoded (c x) = some (.float (g x))) :
    Decodes n (Image c (Bits w k)) decoded ((fun x ↦ CfxValue.float (g x)) <$> r) :=
  (h.map (fun x ↦ CfxValue.float (g x))).image c (fun x _ _ ↦ hc x)

section Sizes

variable {G : ℕ → Grammar Object} {read : ℕ → Cursor CfxValue}

theorem decodes_given (m : ℕ) (h : ∀ m, Decodes n (G m) decoded (read m)) :
    Decodes n (Behind (Size.given m).Writes G) decoded (read m) :=
  (Decodes.constant m m rfl : Decodes n (Size.given m).Writes some (pure m : Cursor ℕ)).behind h

theorem decodes_field8 (h : ∀ m, Decodes n (G m) decoded (read m)) :
    Decodes n (Behind (Size.field 1).Writes G) decoded (readU8 >>= fun b ↦ read b.toNat) := by
  have hbyte : Decodes n (fun b bytes ↦ bytes = [b]) (fun b ↦ some (UInt8.toNat b))
      (UInt8.toNat <$> readU8) := (Decodes.readByte _).map UInt8.toNat
  have hlength : Decodes n (Size.field 1).Writes some (UInt8.toNat <$> readU8) := by
    refine (hbyte.image UInt8.toNat (fun _ _ _ ↦ rfl)).congr (fun m bytes ↦ ?_)
    constructor
    · intro hword
      obtain ⟨hm, rfl⟩ := hword
      refine ⟨UInt8.ofNat m, (UInt8.toNat_ofNat_of_lt' hm).symm, ?_⟩
      simp [toBE]
    · intro hword
      obtain ⟨b, rfl, rfl⟩ := hword
      exact ⟨b.toNat_lt, (toBE_byte b).symm⟩
  have hread := hlength.behind h
  rwa [bind_map_left] at hread

theorem decodes_field {w k : ℕ} (hw : 256 ^ k = 2 ^ w)
    (h : ∀ m, Decodes n (G m) decoded (read m)) :
    Decodes n (Behind (Size.field k).Writes G) decoded
      (readWord w k >>= fun x ↦ read x.toNat) := by
  have hword : Decodes n (Bits w k) (fun x ↦ some (BitVec.toNat x))
      (BitVec.toNat <$> readWord w k) := (decodes_readWord hw).map BitVec.toNat
  have hlength : Decodes n (Size.field k).Writes some (BitVec.toNat <$> readWord w k) := by
    refine (hword.image BitVec.toNat (fun _ _ _ ↦ rfl)).congr (fun m bytes ↦ ?_)
    constructor
    · intro hm
      obtain ⟨hm, rfl⟩ := hm
      have hself : (BitVec.ofNat w m).toNat = m := by
        rw [BitVec.toNat_ofNat, Nat.mod_eq_of_lt (hw ▸ hm)]
      exact ⟨BitVec.ofNat w m, hself.symm, by rw [Bits, hself]⟩
    · intro hx
      obtain ⟨x, rfl, rfl⟩ := hx
      exact ⟨hw ▸ x.isLt, rfl⟩
  have hread := hlength.behind h
  rwa [bind_map_left] at hread

end Sizes

theorem decodes_readStr (m : ℕ) : Decodes n (Image Object.str (Raw m)) decoded (readStr m) := by
  have htext : Decodes n (Raw m)
      (fun text ↦ (some text).bind (fun taken ↦ (ofUtf8 taken).map CfxValue.str)) (readStr m) := by
    refine (Decodes.takeBytes _ m).check (fun taken ↦ ?_)
    cases ofUtf8 taken with
    | none => exact ⟨_, fun _ ↦ rfl⟩
    | some s => exact parses_pure _
  exact htext.image Object.str (fun _ _ _ ↦ rfl)

theorem decodes_readBin (m : ℕ) : Decodes n (Image Object.bin (Raw m)) decoded (readBin m) :=
  ((Decodes.takeBytes _ m).map CfxValue.bin).image Object.bin (fun _ _ _ ↦ rfl)

theorem decodes_readArray (h : Decodes n Encodes decoded readValue) (m : ℕ) :
    Decodes n
      (Image Object.array (fun items bytes ↦ items.length = m ∧ Sequence Encodes items bytes))
      decoded (readArray readValue m) := by
  refine ((h.sequence m).map CfxValue.array).image Object.array (fun items _ _ ↦ ?_)
  rw [decoded, meaning, meaningItems_eq]

theorem decodes_readMap (h : Decodes n Encodes decoded readValue) (m : ℕ) :
    Decodes n (Image Object.map (fun entries bytes ↦
      entries.length = m ∧ Sequence (Both Encodes Encodes) entries bytes))
      decoded (readMap readValue m) := by
  refine (((h.both h).sequence m).map CfxValue.map).image Object.map (fun entries _ _ ↦ ?_)
  rw [decoded, meaning, meaningEntries_eq]

section Ext

variable {m : ℕ}

theorem component_word (x : BitVec 32) (data : List UInt8) :
    component (toBE 4 x.toNat ++ data) 0 = x := by
  rw [component, slice_front (length_toBE 4 _), ofBE_toBE_of_lt x.isLt, BitVec.ofNat_toNat,
    BitVec.setWidth_eq]

theorem component_drop (data : List UInt8) (i : ℕ) :
    component (data.drop 4) i = component data (i + 1) := by
  rw [component, component, slice, slice, List.drop_drop, Nat.mul_succ, Nat.add_comm]

theorem split_word {data : List UInt8} (h : data.length = 4 + m) :
    data = toBE 4 (component data 0).toNat ++ data.drop 4 := by
  have hlen : (data.take 4).length = 4 := by
    rw [List.length_take, h]
    omega
  have hlt : ofBE (data.take 4) < 2 ^ 32 := by
    have hlt := ofBE_lt (data.take 4)
    rw [hlen] at hlt
    exact hlt
  have hfirst : toBE 4 (component data 0).toNat = data.take 4 := by
    have hbytes := toBE_ofBE (data.take 4)
    rw [hlen] at hbytes
    rw [component, slice, Nat.mul_zero, List.drop_zero, BitVec.toNat_ofNat, Nat.mod_eq_of_lt hlt,
      hbytes]
  rw [hfirst, List.take_append_drop]

theorem decodes_component {g : BitVec 32 → List UInt8 → CfxValue}
    {rest : BitVec 32 → Cursor CfxValue}
    (h : ∀ x, Decodes n (Raw m) (fun data ↦ some (g x data)) (rest x)) :
    Decodes n (Raw (4 + m)) (fun data ↦ some (g (component data 0) (data.drop 4)))
      (readF32 >>= rest) := by
  have hword : Decodes n (Bits 32 4) some readF32 := decodes_readWord (by norm_num)
  have hrest : ∀ x : BitVec 32, Decodes n (Image (toBE 4 x.toNat ++ ·) (Raw m))
      (fun data ↦ some (g (component data 0) (data.drop 4))) (rest x) := by
    refine fun x ↦ (h x).image (toBE 4 x.toNat ++ ·) (fun data _ _ ↦ ?_)
    rw [component_word, List.drop_left' (length_toBE 4 _)]
  refine (hword.behind hrest).congr (fun data bytes ↦ ?_)
  constructor
  · intro hraw
    obtain ⟨hlen, hbytes⟩ := hraw
    have hsplit := split_word hlen
    refine ⟨component data 0, _, data.drop 4, rfl, ⟨data.drop 4, hsplit, ?_, rfl⟩,
      hbytes.trans hsplit⟩
    rw [List.length_drop, hlen, Nat.add_sub_cancel_left]
  · intro hbehind
    obtain ⟨x, head, tail, hhead, ⟨rest, hdata, hlen, htail⟩, hbytes⟩ := hbehind
    refine ⟨?_, ?_⟩
    · rw [hdata, List.length_append, length_toBE, hlen]
    · rw [hbytes, hdata, hhead, htail]

theorem decodes_done (v : CfxValue) :
    Decodes n (Raw 0) (fun _ ↦ some v) (pure v : Cursor CfxValue) := by
  refine (Decodes.constant [] v rfl).congr (fun data bytes ↦ ?_)
  rw [Raw, List.length_eq_zero_iff]
  exact and_congr_right (fun h ↦ by rw [h])

def readData (m : ℕ) (type : BitVec 8) : Cursor CfxValue :=
  if type = Ext.vector2 ∧ m = 8 then do return .vector2 (← readF32) (← readF32)
  else if type = Ext.vector3 ∧ m = 12 then do return .vector3 (← readF32) (← readF32) (← readF32)
  else if type = Ext.vector4 ∧ m = 16 then do
    return .vector4 (← readF32) (← readF32) (← readF32) (← readF32)
  else if type = Ext.quaternion ∧ m = 16 then do
    return .quat (← readF32) (← readF32) (← readF32) (← readF32)
  else do return .ext type (← take m)

theorem readExt_eq (m : ℕ) : readExt m = (UInt8.toBitVec <$> readU8) >>= readData m := by
  rw [bind_map_left]
  rfl

theorem decodes_readData (m : ℕ) (type : BitVec 8) :
    Decodes n (Raw m) (fun data ↦ some (extValue type data)) (readData m type) := by
  unfold readData
  split_ifs with h2 h3 h4 hq
  · obtain ⟨rfl, rfl⟩ := h2
    refine (decodes_component (fun x ↦ decodes_component (fun y ↦
      decodes_done (.vector2 x y)))).congr_value (fun data bytes hdata ↦ ?_)
    rw [extValue, if_pos ⟨rfl, hdata.1⟩, component_drop]
  · obtain ⟨rfl, rfl⟩ := h3
    refine (decodes_component (fun x ↦ decodes_component (fun y ↦ decodes_component (fun z ↦
      decodes_done (.vector3 x y z))))).congr_value (fun data bytes hdata ↦ ?_)
    rw [extValue, if_neg (fun h ↦ absurd h.1 (by decide)), if_pos ⟨rfl, hdata.1⟩]
    simp only [component_drop]
  · obtain ⟨rfl, rfl⟩ := h4
    refine (decodes_component (fun x ↦ decodes_component (fun y ↦ decodes_component (fun z ↦
      decodes_component (fun w ↦ decodes_done (.vector4 x y z w)))))).congr_value
      (fun data bytes hdata ↦ ?_)
    rw [extValue, if_neg (fun h ↦ absurd h.1 (by decide)), if_neg (fun h ↦ absurd h.1 (by decide)),
      if_pos ⟨rfl, hdata.1⟩]
    simp only [component_drop]
  · obtain ⟨rfl, rfl⟩ := hq
    refine (decodes_component (fun x ↦ decodes_component (fun y ↦ decodes_component (fun z ↦
      decodes_component (fun w ↦ decodes_done (.quat x y z w)))))).congr_value
      (fun data bytes hdata ↦ ?_)
    rw [extValue, if_neg (fun h ↦ absurd h.1 (by decide)), if_neg (fun h ↦ absurd h.1 (by decide)),
      if_neg (fun h ↦ absurd h.1 (by decide)), if_pos ⟨rfl, hdata.1⟩]
    simp only [component_drop]
  · refine ((Decodes.takeBytes _ m).map (CfxValue.ext type)).congr_value (fun data bytes hdata ↦ ?_)
    rw [← hdata.1] at h2 h3 h4 hq
    rw [extValue, if_neg h2, if_neg h3, if_neg h4, if_neg hq]
    rfl

theorem decodes_type : Decodes n TypeByte some (UInt8.toBitVec <$> readU8) := by
  refine decodes_readU8.congr (fun type bytes ↦ ?_)
  rw [TypeByte, Bits, ← toBE_byte]

theorem decodes_readExt (m : ℕ) :
    Decodes n (Image (fun p ↦ Object.ext p.1 p.2) (Both TypeByte (Raw m))) decoded (readExt m) := by
  rw [readExt_eq]
  have hdata : ∀ type, Decodes n (Image (Prod.mk type) (Raw m))
      (fun p ↦ some (extValue p.1 p.2)) (readData m type) :=
    fun type ↦ (decodes_readData m type).image (Prod.mk type) (fun _ _ _ ↦ rfl)
  have hboth : Decodes n (Both TypeByte (Raw m)) (fun p ↦ some (extValue p.1 p.2))
      ((UInt8.toBitVec <$> readU8) >>= readData m) := by
    refine (decodes_type.behind hdata).congr (fun p bytes ↦ ?_)
    constructor
    · intro h
      obtain ⟨first, second, hfirst, hsecond, hbytes⟩ := h
      exact ⟨p.1, first, second, hfirst, ⟨p.2, rfl, hsecond⟩, hbytes⟩
    · intro h
      obtain ⟨type, first, second, hfirst, ⟨data, rfl, hsecond⟩, hbytes⟩ := h
      exact ⟨first, second, hfirst, hsecond, hbytes⟩
  exact hboth.image (fun p ↦ Object.ext p.1 p.2) (fun _ _ _ ↦ rfl)

end Ext

def Tail (tag : UInt8) : Grammar Object := fun o bytes ↦ Encodes o (tag :: bytes)

theorem of_format {tag : UInt8} {F : Format} {r : Cursor CfxValue} (h : format tag = some F)
    (hbody : Decodes n (Body F) decoded r) : Decodes n (Tail tag) decoded r :=
  hbody.congr (encodes_of_format h)

theorem decodes_nothing {tag : UInt8} (e : AldError) (h : format tag = none) :
    Decodes n (Tail tag) decoded (throw e : Cursor CfxValue) := by
  refine .nothing e (fun o bytes hbytes ↦ ?_)
  obtain ⟨F, hF, -⟩ := encodes_cons.mp hbytes
  cases h.symm.trans hF

theorem decodes_constant {tag : UInt8} {F : Format} {o : Object} {v : CfxValue}
    (h : format tag = some F) (hbody : Body F = fun y bytes ↦ y = o ∧ bytes = [])
    (hv : decoded o = some v) : Decodes n (Tail tag) decoded (pure v : Cursor CfxValue) := by
  refine of_format h ?_
  rw [hbody]
  exact .constant o v hv

theorem decodes_uint {tag : UInt8} {k : ℕ} {r : Cursor (BitVec (8 * k))}
    (h : format tag = some (.uint k)) (hr : Decodes n (Bits (8 * k) k) some r) :
    Decodes n (Tail tag) decoded ((fun x ↦ CfxValue.int (x.setWidth 64)) <$> r) := by
  refine of_format h (decodes_integer (fun x ↦ (x.toNat : ℤ)) _ hr (fun x ↦ ?_))
  rw [BitVec.ofInt_natCast, BitVec.ofNat_toNat]

theorem decodes_int {tag : UInt8} {k : ℕ} {r : Cursor (BitVec (8 * k))}
    (h : format tag = some (.int k)) (hr : Decodes n (Bits (8 * k) k) some r) :
    Decodes n (Tail tag) decoded ((fun x ↦ CfxValue.int (x.signExtend 64)) <$> r) :=
  of_format h (decodes_integer (fun x ↦ x.toInt) _ hr (fun _ ↦ rfl))

theorem return_byte (f : BitVec 8 → CfxValue) :
    (do return f (← readU8).toBitVec) = f <$> UInt8.toBitVec <$> readU8 := by
  rw [Functor.map_map]
  rfl

theorem decodes_uint8 {tag : UInt8} (h : format tag = some (.uint 1)) :
    Decodes n (Tail tag) decoded (do return .int ((← readU8).toBitVec.setWidth 64)) := by
  rw [return_byte (fun x ↦ .int (x.setWidth 64))]
  exact @decodes_uint n tag 1 _ h decodes_readU8

theorem decodes_int8 {tag : UInt8} (h : format tag = some (.int 1)) :
    Decodes n (Tail tag) decoded (do return .int ((← readU8).toBitVec.signExtend 64)) := by
  rw [return_byte (fun x ↦ .int (x.signExtend 64))]
  exact @decodes_int n tag 1 _ h decodes_readU8

theorem decodes_high (h : Decodes n Encodes decoded readValue) {k : ℕ} (hlo : 0xC0 ≤ k)
    (hhi : k < 0xE0) :
    Decodes n (Tail (UInt8.ofNat k)) decoded (readTagged readValue (UInt8.ofNat k)) := by
  have h16 : (256 : ℕ) ^ 2 = 2 ^ 16 := by norm_num
  have h32 : (256 : ℕ) ^ 4 = 2 ^ 32 := by norm_num
  have h64 : (256 : ℕ) ^ 8 = 2 ^ 64 := by norm_num
  interval_cases k
  · exact decodes_constant rfl rfl rfl
  · exact decodes_nothing _ rfl
  · exact decodes_constant rfl rfl rfl
  · exact decodes_constant rfl rfl rfl
  · exact of_format rfl (decodes_field8 decodes_readBin)
  · exact of_format rfl (decodes_field h16 decodes_readBin)
  · exact of_format rfl (decodes_field h32 decodes_readBin)
  · exact of_format rfl (decodes_field8 decodes_readExt)
  · exact of_format rfl (decodes_field h16 decodes_readExt)
  · exact of_format rfl (decodes_field h32 decodes_readExt)
  · exact of_format rfl (decodes_float .float32 widen (decodes_readWord h32) (fun _ ↦ rfl))
  · exact of_format rfl (decodes_float .float64 id (decodes_readWord h64) (fun _ ↦ rfl))
  · exact decodes_uint8 rfl
  · exact decodes_uint rfl (decodes_readWord h16)
  · exact decodes_uint rfl (decodes_readWord h32)
  · exact decodes_uint rfl (decodes_readWord h64)
  · exact decodes_int8 rfl
  · exact decodes_int rfl (decodes_readWord h16)
  · exact decodes_int rfl (decodes_readWord h32)
  · exact of_format rfl (decodes_integer (fun x ↦ x.toInt) id (decodes_readWord h64)
      (fun _ ↦ BitVec.ofInt_toInt))
  · exact of_format rfl (decodes_given 1 decodes_readExt)
  · exact of_format rfl (decodes_given 2 decodes_readExt)
  · exact of_format rfl (decodes_given 4 decodes_readExt)
  · exact of_format rfl (decodes_given 8 decodes_readExt)
  · exact of_format rfl (decodes_given 16 decodes_readExt)
  · exact of_format rfl (decodes_field8 decodes_readStr)
  · exact of_format rfl (decodes_field h16 decodes_readStr)
  · exact of_format rfl (decodes_field h32 decodes_readStr)
  · exact of_format rfl (decodes_field h16 (decodes_readArray h))
  · exact of_format rfl (decodes_field h32 (decodes_readArray h))
  · exact of_format rfl (decodes_field h16 (decodes_readMap h))
  · exact of_format rfl (decodes_field h32 (decodes_readMap h))

theorem format_low {k : ℕ} (h : k < 0x80) : format (UInt8.ofNat k) = some (.fixint k) := by
  interval_cases k <;> rfl

theorem format_map {k : ℕ} (h : k < 16) :
    format (0x80 ||| UInt8.ofNat k) = some (.map (.given k)) := by
  interval_cases k <;> rfl

theorem format_array {k : ℕ} (h : k < 16) :
    format (0x90 ||| UInt8.ofNat k) = some (.array (.given k)) := by
  interval_cases k <;> rfl

theorem format_str {k : ℕ} (h : k < 32) :
    format (0xA0 ||| UInt8.ofNat k) = some (.str (.given k)) := by
  interval_cases k <;> rfl

theorem format_negative {k : ℕ} (hlo : 224 ≤ k) (hhi : k < 256) :
    format (UInt8.ofNat k) = some (.fixint (k - 256)) := by
  interval_cases k <;> rfl

theorem decoded_negative {k : ℕ} (hlo : 224 ≤ k) (hhi : k < 256) :
    decoded (.int (k - 256)) = some (.int ((BitVec.ofNat 8 k).signExtend 64)) := by
  interval_cases k <;> rfl

theorem exists_low {tag base : UInt8} {m : ℕ}
    (hor : ∀ k < m, base ||| UInt8.ofNat k = UInt8.ofNat (base.toNat + k))
    (hlo : base.toNat ≤ tag.toNat) (hhi : tag.toNat < base.toNat + m) :
    ∃ k < m, tag = base ||| UInt8.ofNat k := by
  have hk : tag.toNat - base.toNat < m := by omega
  refine ⟨tag.toNat - base.toNat, hk, ?_⟩
  rw [hor _ hk, Nat.add_sub_cancel' hlo, UInt8.ofNat_toNat]

theorem decodes_readTagged (h : Decodes n Encodes decoded readValue) (tag : UInt8) :
    Decodes n (Tail tag) decoded (readTagged readValue tag) := by
  have hlt := tag.toNat_lt
  have htag : tag = UInt8.ofNat tag.toNat := UInt8.ofNat_toNat.symm
  rcases Nat.lt_or_ge tag.toNat 0x80 with hlow | hge
  · rw [htag, readTagged_fixint _ hlow]
    refine decodes_constant (format_low hlow) rfl ?_
    rw [decoded, meaning, BitVec.ofInt_natCast]
  rcases Nat.lt_or_ge tag.toNat 0x90 with hmap | hge
  · obtain ⟨k, hk, rfl⟩ := @exists_low tag 0x80 16 (by decide) hge hmap
    rw [readTagged_fixmap _ hk]
    exact of_format (format_map hk) (decodes_given k (decodes_readMap h))
  rcases Nat.lt_or_ge tag.toNat 0xA0 with harray | hge
  · obtain ⟨k, hk, rfl⟩ := @exists_low tag 0x90 16 (by decide) hge harray
    rw [readTagged_fixarray _ hk]
    exact of_format (format_array hk) (decodes_given k (decodes_readArray h))
  rcases Nat.lt_or_ge tag.toNat 0xC0 with hstr | hge
  · obtain ⟨k, hk, rfl⟩ := @exists_low tag 0xA0 32 (by decide) hge hstr
    rw [readTagged_fixstr _ hk]
    exact of_format (format_str hk) (decodes_given k decodes_readStr)
  rcases Nat.lt_or_ge tag.toNat 0xE0 with hhigh | hge
  · rw [htag]
    exact decodes_high h hge hhigh
  · rw [htag, readTagged_negative_fixint _ hge hlt]
    exact decodes_constant (format_negative hge hlt) rfl (decoded_negative hge hlt)

/-- The decoder is one for the objects, of any nesting. -/
theorem decodes_readValue (n : ℕ) : Decodes n Encodes decoded readValue := by
  have hend : ∃ e, readValue.run [] = .error e := ⟨_, rfl⟩
  exact .tagged not_encodes_nil (fun _ _ _ ↦ Iff.rfl) hend readValue_cons
    (fun _ h tag ↦ decodes_readTagged h tag) n

end Formats

section Values

def inI64 : Object → Bool
  | .int i => decide (-2 ^ 63 ≤ i ∧ i < 2 ^ 63)
  | _ => true

def legible : Object → Bool
  | .str text => (ofUtf8 text).isSome
  | _ => true

/-- The leaves that stand for something. -/
def defined (int : ℤ → Option CfxValue) : Object → Bool
  | .int i => (int i).isSome
  | .str text => (ofUtf8 text).isSome
  | _ => true

section Lists

variable {α β : Type} {f g : α → Option β} {l : List α}

theorem mapM_congr (h : ∀ x ∈ l, f x = g x) : l.mapM f = l.mapM g := by
  induction l with
  | nil => rfl
  | cons x l ih =>
    obtain ⟨hx, hl⟩ := List.forall_mem_cons.mp h
    rw [Decodes.mapM_cons, Decodes.mapM_cons, hx, ih hl]

theorem isSome_mapM (f : α → Option β) (l : List α) :
    (l.mapM f).isSome = true ↔ ∀ x ∈ l, (f x).isSome = true := by
  induction l with
  | nil => exact iff_of_true rfl (List.forall_mem_nil _)
  | cons x l ih =>
    rw [Decodes.mapM_cons, List.forall_mem_cons, ← ih]
    cases f x with
    | none => simp
    | some y => simp

end Lists

theorem meaning_isSome (int : ℤ → Option CfxValue) (o : Object) :
    (meaning int o).isSome = true ↔ o.all (defined int) = true := by
  induction o using Object.induct with
  | leaf o harray hmap =>
    cases o with
    | array items => exact absurd rfl (harray items)
    | map entries => exact absurd rfl (hmap entries)
    | str text =>
      change ((ofUtf8 text).map CfxValue.str).isSome = true ↔ (ofUtf8 text).isSome = true
      rw [Option.isSome_map]
    | int i => exact Iff.rfl
    | _ => exact iff_of_true rfl rfl
  | array items ih =>
    rw [meaning, meaningItems_eq, Option.isSome_map, isSome_mapM, Object.all_array_iff]
    exact (forall₂_congr ih).trans (and_iff_right rfl).symm
  | map entries ih =>
    rw [meaning, meaningEntries_eq, Option.isSome_map, isSome_mapM, Object.all_map_iff]
    refine Iff.trans (forall₂_congr (fun e he ↦ ?_)) (and_iff_right rfl).symm
    rw [← (ih e he).1, ← (ih e he).2]
    cases meaning int e.1 with
    | none => simp
    | some key => simp

theorem denote_eq {o : Object} (h : o.all inI64 = true) : denote o = decoded o := by
  induction o using Object.induct with
  | leaf o harray hmap =>
    cases o with
    | array items => exact absurd rfl (harray items)
    | map entries => exact absurd rfl (hmap entries)
    | int i => exact if_pos (of_decide_eq_true h)
    | _ => rfl
  | array items ih =>
    have hitems := (Object.all_array_iff.mp h).2
    rw [denote, decoded, meaning, meaning, meaningItems_eq, meaningItems_eq]
    exact congrArg (Option.map CfxValue.array) (mapM_congr (fun o ho ↦ ih o ho (hitems o ho)))
  | map entries ih =>
    have hentries := (Object.all_map_iff.mp h).2
    rw [denote, decoded, meaning, meaning, meaningEntries_eq, meaningEntries_eq]
    refine congrArg (Option.map CfxValue.map) (mapM_congr (fun e he ↦ ?_))
    have hkey := (ih e he).1 (hentries e he).1
    have hvalue := (ih e he).2 (hentries e he).2
    rw [denote, decoded] at hkey hvalue
    rw [hkey, hvalue]

theorem inI64_of_defined (o : Object) (h : defined exactInt o = true) : inI64 o = true := by
  cases o with
  | int i =>
    refine decide_eq_true ?_
    by_contra hrange
    rw [defined, exactInt, if_neg hrange] at h
    cases h
  | _ => rfl

theorem legible_of_defined {int : ℤ → Option CfxValue} (o : Object) (h : defined int o = true) :
    legible o = true := by
  cases o with
  | str text => exact h
  | _ => rfl

theorem decoded_isSome (o : Object) : (decoded o).isSome = true ↔ o.all legible = true := by
  have hsame : defined (fun i ↦ some (.int (BitVec.ofInt 64 i))) = legible := by
    funext o
    cases o <;> rfl
  rw [← hsame]
  exact meaning_isSome _ o

/-- The decoder gives an object its meaning if and only if all numbers in it fit, or it has none. -/
theorem denote_eq_iff (o : Object) :
    denote o = decoded o ↔ o.all inI64 = true ∨ o.all legible = false := by
  have hdenote : (denote o).isSome = true ↔ o.all (defined exactInt) = true :=
    meaning_isSome exactInt o
  constructor
  · intro heq
    cases hlegible : o.all legible with
    | false => exact .inr rfl
    | true =>
      have hsome := (decoded_isSome o).mpr hlegible
      rw [← heq, hdenote] at hsome
      exact .inl (Object.all_mono inI64_of_defined o hsome)
  · intro h
    rcases h with h | h
    · exact denote_eq h
    · have hdecoded : decoded o = none := by
        rw [← Option.not_isSome_iff_eq_none, decoded_isSome, h]
        exact Bool.false_ne_true
      rw [hdecoded, ← Option.not_isSome_iff_eq_none, hdenote]
      intro hall
      rw [Object.all_mono legible_of_defined o hall] at h
      cases h

end Values

section Results

structure Follows (bytes : List UInt8) : Prop where
  value : ∀ o taken rest, Encodes o taken → bytes = taken ++ rest →
    (unpack bytes).toOption = denote o
  rest : ∀ o taken rest rest', Encodes o taken → bytes = taken ++ rest →
    unpack (taken ++ rest') = unpack bytes
  short : ∀ o taken rest, Encodes o taken → bytes = taken ++ rest →
    ∀ front more, taken = front ++ more → more ≠ [] → ∃ e, unpack front = .error e
  outside : (∀ o taken rest, Encodes o taken → bytes ≠ taken ++ rest) →
    ∃ e, unpack bytes = .error e

theorem unpack_error {bytes : List UInt8} (h : ∃ e, readValue.run bytes = .error e) :
    ∃ e, unpack bytes = .error e := by
  obtain ⟨e, he⟩ := h
  exact ⟨e, by rw [unpack, he]; rfl⟩

theorem unpack_object {o : Object} {taken : List UInt8} (h : Encodes o taken) :
    ∃ result, result.toOption = decoded o ∧ ∀ rest, unpack (taken ++ rest) = result := by
  have hgives := (decodes_readValue taken.length).complete o taken h le_rfl
  cases hdecoded : decoded o with
  | none =>
    rw [hdecoded] at hgives
    obtain ⟨e, he⟩ := hgives
    exact ⟨.error e, rfl, fun rest ↦ by rw [unpack, he rest]; rfl⟩
  | some v =>
    rw [hdecoded] at hgives
    exact ⟨.ok v, rfl, fun rest ↦ by rw [unpack, hgives rest]; rfl⟩

/-- `unpack` follows the specification where no number is beyond the `i64`, or where the object has
no value because of its text. -/
theorem follows_iff (bytes : List UInt8) : Follows bytes ↔
    ∀ o taken rest, Encodes o taken → bytes = taken ++ rest →
      o.all inI64 = true ∨ o.all legible = false := by
  constructor
  · intro h o taken rest hobject hbytes
    obtain ⟨result, hresult, hunpack⟩ := unpack_object hobject
    have hvalue := h.value o taken rest hobject hbytes
    rw [hbytes, hunpack, hresult] at hvalue
    exact (denote_eq_iff o).mp hvalue.symm
  · intro h
    refine ⟨fun o taken rest hobject hbytes ↦ ?_, fun o taken rest rest' hobject hbytes ↦ ?_,
      fun o taken rest hobject _ front more hsplit hmore ↦ ?_, fun hout ↦ ?_⟩
    · obtain ⟨result, hresult, hunpack⟩ := unpack_object hobject
      rw [hbytes, hunpack, hresult]
      exact ((denote_eq_iff o).mpr (h o taken rest hobject hbytes)).symm
    · obtain ⟨result, -, hunpack⟩ := unpack_object hobject
      rw [hbytes, hunpack, hunpack]
    · rw [hsplit] at hobject
      exact unpack_error (fails_on_front decodes_readValue hobject hmore)
    · exact unpack_error (fails_outside decodes_readValue hout)

/-- The greatest `u64` comes out as -1. -/
theorem greatest_wraps : ¬Follows (0xCF :: List.replicate 8 0xFF) := by
  intro h
  have hobject : Encodes (.int (BitVec.allOnes (8 * 8)).toNat)
      (0xCF :: toBE 8 (BitVec.allOnes (8 * 8)).toNat) := .uint rfl _
  have hbytes : (0xCF :: List.replicate 8 0xFF : List UInt8) =
      (0xCF :: toBE 8 (BitVec.allOnes (8 * 8)).toNat) ++ [] := by decide
  have hvalue := h.value _ _ [] hobject hbytes
  have hread : unpack (0xCF :: List.replicate 8 0xFF) = .ok (.int (BitVec.allOnes 64)) := by
    rw [unpack, readValue_cons]
    rfl
  have hnone : denote (.int (BitVec.allOnes (8 * 8)).toNat) = none := by
    rw [denote, meaning, exactInt, if_neg]
    norm_num
  rw [hread, hnone] at hvalue
  cases hvalue

end Results

end Aldivine.Serialization.Foreign
