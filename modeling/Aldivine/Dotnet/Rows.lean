import Aldivine.Dotnet.Bounds

namespace Aldivine.Dotnet.Rows

open Foundation.Machine Foundation.Checked Foundation.Wire Tables Reader Standard Image Bounds

variable {b : List UInt8} {c : Ctx} {l : Layout} {o t i : ℕ}

section Columns

variable {α β : Type} {m : Columns α} {f : α → Columns β} {n k : ℕ} {P : α → Prop} {Q : β → Prop}

def columnAt (b : List UInt8) (width o : ℕ) : ℕ := ofLE ((b.drop o).take width)

theorem wordAt_ok (hb : b.length < 2 ^ 31) (name : String) {width : ℕ} (h : o + width ≤ b.length) :
    wordAt name width b o = .ok (columnAt b width o) := by
  obtain ⟨_, hplus, rfl⟩ := @yields_plus CliError o width (by omega)
  unfold wordAt
  rw [hplus]
  change okOr _ _ >>= _ = _
  rw [getRange_of_le (Nat.le_add_right _ _) h, Nat.add_sub_cancel_left]
  rfl

theorem idx_ok (hb : b.length < 2 ^ 31) {size : ℕ} (hsize : size = 2 ∨ size = 4)
    (h : o + size ≤ b.length) : idx b size o = .ok (columnAt b size o, o + size) := by
  obtain ⟨_, hplus, rfl⟩ := @yields_plus CliError o size (by omega)
  rcases hsize with rfl | rfl
  · change wordAt "u16" 2 b o >>= _ = _
    rw [wordAt_ok hb "u16" h]
    change plus o 2 >>= _ = _
    rw [hplus]
    rfl
  · change wordAt "u32" 4 b o >>= _ = _
    rw [wordAt_ok hb "u32" h]
    change plus o 4 >>= _ = _
    rw [hplus]
    rfl

theorem skip_ok (hb : b.length < 2 ^ 31) (h : o + n ≤ b.length) :
    skip b n o = .ok ((), o + n) := by
  have hadd : checkedAdd o n = some (o + n) := if_pos (by omega)
  unfold skip
  rw [hadd, Option.filter_some, if_pos (decide_eq_true h)]
  rfl

theorem run'_idx (hb : b.length < 2 ^ 31) {size : ℕ} (hsize : size = 2 ∨ size = 4)
    (h : o + size ≤ b.length) : (idx b size).run' o = .ok (columnAt b size o) := by
  unfold StateT.run'
  rw [idx_ok hb hsize h]
  rfl

theorem run'_skip_idx (hb : b.length < 2 ^ 31) {size : ℕ} (hsize : size = 2 ∨ size = 4)
    (h : o + n + size ≤ b.length) :
    (skip b n >>= fun _ ↦ idx b size : Columns ℕ).run' o = .ok (columnAt b size (o + n)) := by
  unfold StateT.run'
  change (skip b n o >>= fun x ↦ idx b size x.2) >>= _ = _
  rw [skip_ok hb (by omega), ok_bind, idx_ok hb hsize h]
  rfl

/-- The columns take at most `n` bytes, and their values satisfy `P`. -/
def Spans (b : List UInt8) (m : Columns α) (n : ℕ) (P : α → Prop) : Prop :=
  ∀ o, o + n ≤ b.length → Yields (m o) (fun x ↦ P x.1 ∧ x.2 ≤ o + n)

theorem spans_pure {a : α} (h : P a) : Spans b (pure a) 0 P :=
  fun _ _ ↦ yields_pure ⟨h, le_rfl⟩

theorem Spans.bind (hm : Spans b m n P) (hf : ∀ a, P a → Spans b (f a) k Q) :
    Spans b (m >>= f) (n + k) Q := by
  intro o ho
  refine (hm o (by omega)).bind (fun (a, o') ⟨ha, ho'⟩ ↦ ?_)
  dsimp only at ha ho'
  refine (hf a ha o' (by omega)).mono (fun x hx ↦ ⟨hx.1, ?_⟩)
  omega

theorem Spans.mono (hm : Spans b m n P) (h : n ≤ k) : Spans b m k P := by
  intro o ho
  refine (hm o (by omega)).mono (fun x hx ↦ ⟨hx.1, ?_⟩)
  omega

theorem Spans.imp {P' : α → Prop} (hm : Spans b m n P) (h : ∀ a, P a → P' a) : Spans b m n P' :=
  fun o ho ↦ (hm o ho).mono (fun _ hx ↦ ⟨h _ hx.1, hx.2⟩)

theorem spans_idx (hb : b.length < 2 ^ 31) {size : ℕ} (hsize : size = 2 ∨ size = 4) :
    Spans b (idx b size) size (· < 2 ^ 32) := by
  intro o ho
  refine ⟨_, idx_ok hb hsize ho, ?_, le_rfl⟩
  refine (ofLE_lt _).trans_le (show _ ≤ 256 ^ 4 from Nat.pow_le_pow_right (by decide) ?_)
  rw [List.length_take]
  omega

theorem spans_u16 (hb : b.length < 2 ^ 31) : Spans b (u16 b) 2 (· < 2 ^ 32) :=
  spans_idx hb (.inl rfl)

theorem spans_u32 (hb : b.length < 2 ^ 31) : Spans b (u32 b) 4 (· < 2 ^ 32) :=
  spans_idx hb (.inr rfl)

theorem spans_skip (hb : b.length < 2 ^ 31) : Spans b (skip b n) n (fun _ ↦ True) :=
  fun _ ho ↦ ⟨_, skip_ok hb ho, trivial, le_rfl⟩

theorem Spans.run' (hm : Spans b m n P) (h : o + n ≤ b.length) : Yields (m.run' o) P := by
  obtain ⟨x, hx, hP, -⟩ := hm o h
  refine ⟨x.1, ?_, hP⟩
  unfold StateT.run'
  rw [hx]
  rfl

theorem row_inside (hl : WellPlaced b l) (hi : i < l.ctx.rows t) :
    l.offsets t + i * Standard.sizeOf l.ctx t + Standard.sizeOf l.ctx t ≤ b.length := by
  have hin := (hl.tables t (by omega)).2
  have hrow : (i + 1) * Standard.sizeOf l.ctx t ≤ l.ctx.rows t * Standard.sizeOf l.ctx t :=
    Nat.mul_le_mul_right _ hi
  rw [Nat.succ_mul, Nat.mul_comm (l.ctx.rows t)] at hrow
  omega

theorem atRow_eq (hb : b.length < 2 ^ 31) (hl : WellPlaced b l) (hi : i < l.ctx.rows t)
    (m : Columns α) : Image.atRow l t (Standard.sizeOf l.ctx t) i m =
      m.run' (l.offsets t + i * Standard.sizeOf l.ctx t) := by
  have hin := row_inside hl hi
  obtain ⟨_, htimes, rfl⟩ := @yields_times CliError i (Standard.sizeOf l.ctx t) (by omega)
  obtain ⟨_, hplus, rfl⟩ := @yields_plus CliError (l.offsets t) (i * Standard.sizeOf l.ctx t)
    (by omega)
  unfold Image.atRow
  rw [htimes]
  change plus _ _ >>= _ = _
  rw [hplus]
  rfl

theorem Spans.atRow (hb : b.length < 2 ^ 31) (hl : WellPlaced b l)
    (hm : Spans b m (Standard.sizeOf l.ctx t) P) (hi : i < l.ctx.rows t) :
    Yields (Image.atRow l t (Standard.sizeOf l.ctx t) i m) P := by
  rw [atRow_eq hb hl hi]
  exact hm.run' (row_inside hl hi)

theorem Spans.firstRow (hl : WellPlaced b l) (hm : Spans b m (Standard.sizeOf l.ctx t) P)
    (hrows : l.ctx.rows t ≠ 0) : Yields (m.run' (l.offsets t)) P := by
  have hin := row_inside hl (Nat.pos_of_ne_zero hrows)
  rw [Nat.zero_mul, Nat.add_zero] at hin
  exact hm.run' hin

end Columns

section Heaps

variable {s : Streams} {start stop : ℕ}

theorem heapFrom_eq_some {place : Option (ℕ × ℕ)} {idx : ℕ}
    (h : heapFrom b place idx = some (start, stop)) : start < stop ∧ stop ≤ b.length := by
  obtain ⟨⟨off, size⟩, -, h⟩ := Option.bind_eq_some_iff.mp h
  obtain ⟨lo, -, h⟩ := Option.bind_eq_some_iff.mp h
  obtain ⟨hi, -, h⟩ := Option.bind_eq_some_iff.mp h
  split_ifs at h with hout
  cases h
  omega

theorem yields_readString (hb : b.length < 2 ^ 31) (s : Streams) (idx : ℕ) :
    Yields (readString b s idx) (fun _ ↦ True) := by
  unfold readString
  split_ifs
  · exact yields_pure trivial
  · split
    · exact yields_pure trivial
    · rename_i start stop hheap
      obtain ⟨hlt, hstop⟩ := heapFrom_eq_some hheap
      refine (yields_sliceRange hlt.le hstop).bind (fun heap hlength ↦ ?_)
      split
      · exact yields_pure trivial
      · rename_i n hzero
        have hn : n < heap.length := findIdx?_lt hzero
        refine (yields_plus (by omega)).bind ?_
        rintro _ rfl
        exact (yields_sliceRange (by omega) (by omega)).bind (fun _ _ ↦ yields_pure trivial)

theorem yields_readGuid (hb : b.length < 2 ^ 31) (hs : StreamsInside b s) {idx : ℕ}
    (hidx : idx < 2 ^ 32) : Yields (readGuid b s idx) (fun _ ↦ True) := by
  unfold readGuid
  split_ifs with hzero
  · exact yields_pure trivial
  · split
    · exact yields_pure trivial
    · rename_i off size hguid
      have hin := hs.guid _ hguid
      dsimp only at hin
      refine (yields_minus (by omega)).bind ?_
      rintro _ rfl
      refine (yields_times (by omega)).bind ?_
      rintro _ rfl
      split
      · rename_i start stop hstart hstop
        obtain ⟨rfl, -⟩ := checkedAdd_eq_some hstart
        refine (yields_plus (by omega)).bind ?_
        rintro _ rfl
        split_ifs with hout
        · exact yields_pure trivial
        · refine (yields_sliceRange (by omega) (by omega)).bind (fun _ _ ↦ yields_pure trivial)
      · exact yields_pure trivial

theorem compressedUint_lt {bytes : List UInt8} {len consumed : ℕ}
    (h : compressedUint bytes = some (len, consumed)) : len < 2 ^ 32 ∧ consumed ≤ 4 := by
  have hbyte (x : UInt8) : x.toNat < 2 ^ 8 := x.toNat_lt
  unfold compressedUint at h
  split at h
  · cases h
  · rename_i first rest
    split_ifs at h
    · cases h
      exact ⟨(hbyte first).trans (by decide), by decide⟩
    · split at h
      · rename_i second _
        cases h
        have h₀ := hbyte (first &&& 0x3f)
        have h₁ := hbyte second
        omega
      · cases h
    · split at h
      · rename_i r₀ r₁ r₂ _
        cases h
        have h₀ : (first &&& 0x1f).toNat ≤ 0x1f := Nat.and_le_right
        have h₁ := hbyte r₀
        have h₂ := hbyte r₁
        have h₃ := hbyte r₂
        omega
      · cases h

theorem yields_readBlob (hb : b.length < 2 ^ 31) (s : Streams) (idx : ℕ) :
    Yields (readBlob b s idx) (fun _ ↦ True) := by
  unfold readBlob
  split_ifs
  · exact yields_pure trivial
  · split
    · exact yields_pure trivial
    · rename_i start stop hheap
      obtain ⟨hlt, hstop⟩ := heapFrom_eq_some hheap
      refine (yields_sliceRange hlt.le hstop).bind (fun heap _ ↦ ?_)
      split
      · exact yields_pure trivial
      · rename_i len consumed hlen
        obtain ⟨hlen, hconsumed⟩ := compressedUint_lt hlen
        refine (yields_plus (by omega)).bind ?_
        rintro _ rfl
        refine (yields_plus (by omega)).bind ?_
        rintro _ rfl
        split_ifs
        · exact yields_pure trivial
        · exact (yields_sliceRange (by omega) (by omega)).bind (fun _ _ ↦ yields_pure trivial)

theorem yields_publicKeyToken (sha1 : Sha1) (publicKey : List UInt8) :
    Yields (publicKeyToken sha1 publicKey) (fun _ ↦ True) := by
  unfold publicKeyToken
  split_ifs
  · exact yields_pure trivial
  · have hlength : (sha1 publicKey).toList.length = 20 := Vector.length_toList
    refine (yields_minus (by omega)).bind ?_
    rintro _ rfl
    refine (yields_sliceRange (Nat.sub_le _ _) le_rfl).bind (fun _ _ ↦ yields_pure trivial)

end Heaps

section Tables

theorem sizeOf_eq {n : ℕ} (h : rowSize t c = .ok n) : Standard.sizeOf c t = n := by
  unfold Standard.sizeOf
  rw [h]

theorem spans_moduleColumns (hb : b.length < 2 ^ 31) (c : Ctx) :
    Spans b (moduleColumns b c) (Standard.sizeOf c 0x00) (fun x ↦ x.2 < 2 ^ 32) := by
  refine ((spans_u16 hb).bind fun _ _ ↦ (spans_idx hb (strIdx_cases c)).bind fun name _ ↦
    (spans_idx hb (guidIdx_cases c)).bind fun mvid hmvid ↦ spans_pure hmvid).mono ?_
  rw [@sizeOf_eq c 0x00 _ rfl]
  omega

theorem spans_identityColumns (hb : b.length < 2 ^ 31) (c : Ctx) :
    Spans b (identityColumns b c) (12 + c.blobIdx + c.strIdx + c.strIdx) (fun _ ↦ True) := by
  have hword := @spans_u16 b hb
  have hname := @spans_idx b hb _ (strIdx_cases c)
  refine (hword.bind fun _ _ ↦ hword.bind fun _ _ ↦ hword.bind fun _ _ ↦ hword.bind fun _ _ ↦
    (spans_u32 hb).bind fun _ _ ↦ (spans_idx hb (blobIdx_cases c)).bind fun _ _ ↦
      hname.bind fun _ _ ↦ hname.bind fun _ _ ↦ spans_pure trivial).mono ?_
  omega

theorem spans_assemblyColumns (hb : b.length < 2 ^ 31) (c : Ctx) :
    Spans b (assemblyColumns b c) (Standard.sizeOf c 0x20) (fun _ ↦ True) := by
  refine ((spans_u32 hb).bind fun _ _ ↦ spans_identityColumns hb c).mono ?_
  rw [@sizeOf_eq c 0x20 _ rfl]
  omega

theorem spans_referenceColumns (hb : b.length < 2 ^ 31) (c : Ctx) :
    Spans b (identityColumns b c) (Standard.sizeOf c 0x23) (fun _ ↦ True) := by
  refine (spans_identityColumns hb c).mono ?_
  rw [@sizeOf_eq c 0x23 _ rfl]
  omega

theorem spans_typeRefColumns (hb : b.length < 2 ^ 31) (c : Ctx) :
    Spans b (typeRefColumns b c) (Standard.sizeOf c 0x01) (fun _ ↦ True) := by
  have hname := @spans_idx b hb _ (strIdx_cases c)
  refine ((spans_skip hb).bind fun _ _ ↦ hname.bind fun _ _ ↦ hname.bind fun _ _ ↦
    spans_pure trivial).mono ?_
  rw [@sizeOf_eq c 0x01 _ rfl, resolutionScope]
  omega

theorem spans_typeDefNameColumns (hb : b.length < 2 ^ 31) (c : Ctx) :
    Spans b (typeDefNameColumns b c) (4 + c.strIdx + c.strIdx) (fun _ ↦ True) := by
  have hname := @spans_idx b hb _ (strIdx_cases c)
  refine ((spans_u32 hb).bind fun _ _ ↦ hname.bind fun _ _ ↦ hname.bind fun _ _ ↦
    spans_pure trivial).mono ?_
  omega

theorem spans_typeDefColumns (hb : b.length < 2 ^ 31) (c : Ctx) :
    Spans b (typeDefColumns b c) (Standard.sizeOf c 0x02) (fun _ ↦ True) := by
  refine ((spans_typeDefNameColumns hb c).bind fun _ _ ↦
    (spans_idx hb (coded_cases c _ _)).bind fun _ _ ↦ spans_pure trivial).mono ?_
  rw [@sizeOf_eq c 0x02 _ rfl]
  omega

theorem spans_implMapColumns (hb : b.length < 2 ^ 31) (c : Ctx) :
    Spans b (implMapColumns b c) (Standard.sizeOf c 0x1c) (fun _ ↦ True) := by
  refine ((spans_u16 hb).bind fun _ _ ↦ (spans_skip hb).bind fun _ _ ↦
    (spans_idx hb (strIdx_cases c)).bind fun _ _ ↦
      (spans_idx hb (simple_cases c _)).bind fun _ _ ↦ spans_pure trivial).mono ?_
  rw [@sizeOf_eq c 0x1c _ rfl]
  omega

theorem spans_moduleRefColumns (hb : b.length < 2 ^ 31) (c : Ctx) :
    Spans b (moduleRefColumns b c) (Standard.sizeOf c 0x1a) (fun _ ↦ True) :=
  (spans_idx hb (strIdx_cases c)).imp fun _ _ ↦ trivial

end Tables

end Aldivine.Dotnet.Rows
