import Aldivine.Dotnet.Image
import Aldivine.Dotnet.Standard

namespace Aldivine.Dotnet.Bounds

open Foundation.Machine Foundation.Checked Foundation.Layout Foundation.Wire Tables Reader Standard

variable {b : List UInt8} {o p : ℕ}

section Words

theorem ensures_wordAt (name : String) {width : ℕ} (h : o + width < 2 ^ 64) :
    Ensures (wordAt name width b o) (· < 256 ^ width) := by
  refine (ensures_plus h).bind ?_
  rintro _ rfl
  refine ensures_okOr.bind (fun bytes hbytes ↦ ensures_pure ?_)
  have hlength : bytes.length = width := Nat.add_left_cancel (getRange_eq_some hbytes).2
  rw [← hlength]
  exact ofLE_lt bytes

theorem ensures_u16At (h : o + 2 < 2 ^ 64) : Ensures (u16At b o) (· < 2 ^ 16) :=
  ensures_wordAt "u16" h

theorem ensures_u32At (h : o + 4 < 2 ^ 64) : Ensures (u32At b o) (· < 2 ^ 32) :=
  ensures_wordAt "u32" h

theorem ensures_u64At (h : o + 8 < 2 ^ 64) : Ensures (u64At b o) (· < 2 ^ 64) :=
  ensures_wordAt "u64" h

theorem ensures_align4 (h : p + 3 < 2 ^ 64) : Ensures (align4 p) (· ≤ p + 3) := by
  refine (ensures_plus h).bind ?_
  rintro _ rfl
  exact ensures_pure (Nat.div_mul_le_self _ _)

end Words

section Headers

variable {α : Type} {f : ℕ → Read α} {P : α → Prop}

theorem ensures_plus_bind {x y : ℕ} (h : x + y < 2 ^ 64) (hf : Ensures (f (x + y)) P) :
    Ensures (plus x y >>= f) P := by
  refine (ensures_plus h).bind ?_
  rintro _ rfl
  exact hf

theorem ensures_u32At_bind {x y : ℕ} (h : x + y + 4 < 2 ^ 64)
    (hf : ∀ v < 2 ^ 32, Ensures (f v) P) : Ensures (plus x y >>= fun o ↦ u32At b o >>= f) P :=
  ensures_plus_bind (by omega) ((ensures_u32At h).bind hf)

theorem ensures_u16At_bind {x y : ℕ} (h : x + y + 2 < 2 ^ 64)
    (hf : ∀ v < 2 ^ 16, Ensures (f v) P) : Ensures (plus x y >>= fun o ↦ u16At b o >>= f) P :=
  ensures_plus_bind (by omega) ((ensures_u16At h).bind hf)

def Placed (sections : List Section) : Prop := ∀ s ∈ sections, s.pointerToRawData < 2 ^ 32

theorem ensures_readSection {secOff i : ℕ} {sections : List Section} (hoff : secOff < 2 ^ 33)
    (hi : i < 2 ^ 16) (hsections : Placed sections) :
    Ensures (readSection b secOff sections i) Placed := by
  unfold readSection
  refine (yields_times (by omega)).ensures.bind ?_
  rintro _ rfl
  refine ensures_plus_bind (by omega) (ensures_plus_bind (by omega) ?_)
  refine ensures_refuse.bind (fun _ _ ↦ ?_)
  refine ensures_u32At_bind (by omega) (fun virtualSize _ ↦ ?_)
  refine ensures_u32At_bind (by omega) (fun virtualAddress _ ↦ ?_)
  refine ensures_u32At_bind (by omega) (fun sizeOfRawData _ ↦ ?_)
  refine ensures_u32At_bind (by omega) (fun pointerToRawData hpointer ↦ ensures_pure ?_)
  intro s hs
  rcases List.mem_append.mp hs with hs | hs
  · exact hsections s hs
  · rw [List.mem_singleton.mp hs]
    exact hpointer

theorem ensures_readDirectories {opt magic : ℕ} (hopt : opt < 2 ^ 33) :
    Ensures (readDirectories b opt magic) (fun x ↦ x.1 < 2 ^ 34) := by
  unfold readDirectories
  split_ifs
  · refine ensures_plus_bind (by omega) (ensures_u32At_bind (by omega) (fun _ _ ↦ ?_))
    exact ensures_pure (by omega)
  · refine ensures_plus_bind (by omega) (ensures_u32At_bind (by omega) (fun _ _ ↦ ?_))
    exact ensures_pure (by omega)
  · exact trivial

theorem ensures_readPeHeaders :
    Ensures (readPeHeaders b) (fun pe ↦ pe.cliRva < 2 ^ 32 ∧ Placed pe.sections) := by
  unfold readPeHeaders
  refine ensures_refuse.bind (fun _ _ ↦ ?_)
  refine (ensures_u32At (by omega)).bind (fun eLfanew hlfanew ↦ ?_)
  refine ensures_plus_bind (by omega) (ensures_refuse.bind (fun _ _ ↦ ?_))
  refine ensures_u16At_bind (by omega) (fun numberOfSections hnumber ↦ ?_)
  refine ensures_u16At_bind (by omega) (fun sizeOfOptionalHeader hsize ↦ ?_)
  refine ensures_plus_bind (by omega) ((ensures_u16At (by omega)).bind (fun magic _ ↦ ?_))
  refine (ensures_readDirectories (by omega)).bind (fun (dirsOff, dirCount) hdirs ↦ ?_)
  refine ensures_u32At_bind (by omega) (fun sizeOfHeaders _ ↦ ensures_refuse.bind (fun _ _ ↦ ?_))
  refine ensures_u32At_bind (by omega) (fun cliRva hrva ↦ ?_)
  refine ensures_plus_bind (by omega) (ensures_u32At_bind (by omega) (fun cliSize _ ↦ ?_))
  refine ensures_refuse.bind (fun _ _ ↦ ensures_plus_bind (by omega) ?_)
  have hnone : Placed [] := fun s hs ↦ absurd hs List.not_mem_nil
  refine (ensures_foldlM hnone (fun sections i hi hsections ↦ ?_)).bind
    (fun sections hsections ↦ ensures_pure ⟨hrva, hsections⟩)
  exact ensures_readSection (by omega) ((List.mem_range.mp hi).trans hnumber) hsections

theorem ensures_offsetInSections {rva : ℕ} (hb : b.length < 2 ^ 31) (hrva : rva < 2 ^ 32)
    {sections : List Section} (hsections : Placed sections) :
    Ensures (offsetInSections b rva sections) (· < 2 ^ 32) := by
  induction sections with
  | nil => exact trivial
  | cons s rest ih =>
    obtain ⟨hpointer, hrest⟩ := List.forall_mem_cons.mp hsections
    unfold offsetInSections
    dsimp only
    split_ifs with hinside
    · refine (yields_minus hinside.1).ensures.bind ?_
      rintro _ rfl
      refine ensures_plus_bind (by omega) (ensures_refuse.bind (fun _ hin ↦ ensures_pure ?_))
      omega
    · exact ih hrest

theorem ensures_rvaToOffset {pe : PeHeaders} {rva : ℕ} (hb : b.length < 2 ^ 31)
    (hrva : rva < 2 ^ 32) (hsections : Placed pe.sections) :
    Ensures (rvaToOffset b pe rva) (· < 2 ^ 32) := by
  unfold rvaToOffset
  split_ifs
  · exact ensures_pure hrva
  · exact ensures_offsetInSections hb hrva hsections

theorem ensures_readCliHeader (ho : o < 2 ^ 32) :
    Ensures (readCliHeader b o) (fun cli ↦ cli.metadataRva < 2 ^ 32) := by
  unfold readCliHeader
  refine ensures_plus_bind (by omega) (ensures_refuse.bind (fun _ _ ↦ ?_))
  refine ensures_u32At_bind (by omega) (fun metadataRva hrva ↦ ?_)
  refine ensures_u32At_bind (by omega) (fun metadataSize _ ↦ ?_)
  refine ensures_u32At_bind (by omega) (fun flags _ ↦ ?_)
  exact ensures_u32At_bind (by omega) (fun entryPointToken _ ↦ ensures_pure hrva)

end Headers

section Streams

def Inside (b : List UInt8) (place : Option (ℕ × ℕ)) : Prop :=
  ∀ x ∈ place, x.1 + x.2 ≤ b.length

structure StreamsInside (b : List UInt8) (s : Streams) : Prop where
  tables : Inside b s.tables
  strings : Inside b s.strings
  guid : Inside b s.guid
  blob : Inside b s.blob

theorem StreamsInside.record {s : Streams} (hs : StreamsInside b s) (name : String) {place : ℕ × ℕ}
    (hplace : place.1 + place.2 ≤ b.length) : StreamsInside b (s.record name place) := by
  have hinside : Inside b (some place) := by
    intro x hx
    rw [← Option.some.inj hx]
    exact hplace
  unfold Streams.record
  split_ifs
  · exact { hs with tables := hinside }
  · exact { hs with strings := hinside }
  · exact { hs with guid := hinside }
  · exact { hs with blob := hinside }
  · exact hs

theorem findIdx?_lt {l : List UInt8} {q : UInt8 → Bool} {n : ℕ} (h : l.findIdx? q = some n) :
    n < l.length := (List.findIdx?_eq_some_iff_getElem.mp h).1

theorem ensures_readStream {off i : ℕ} {x : ℕ × Streams} (hb : b.length < 2 ^ 31)
    (hoff : off < 2 ^ 32) (hp : x.1 < 2 ^ 33) (hx : StreamsInside b x.2) :
    Ensures (readStream b off x i) (fun x ↦ x.1 < 2 ^ 33 ∧ StreamsInside b x.2) := by
  obtain ⟨p, streams⟩ := x
  dsimp only at hp hx
  unfold readStream
  refine (ensures_u32At (by omega)).bind (fun sOff hsOff ↦ ?_)
  refine ensures_u32At_bind (by omega) (fun sSize _ ↦ ?_)
  refine ensures_plus_bind (by omega) (ensures_okOr.bind (fun nameLength hname ↦ ?_))
  obtain ⟨rest, hrest, hfound⟩ := Option.bind_eq_some_iff.mp hname
  have hlength := (getRange_eq_some hrest).2
  have hlt := findIdx?_lt hfound
  refine ensures_plus_bind (by omega) ?_
  refine (yields_sliceRange (by omega) (by omega)).ensures.bind (fun nameBytes _ ↦ ?_)
  refine ensures_okOr.bind (fun name _ ↦ ensures_plus_bind (by omega) ?_)
  refine ensures_okOr.bind (fun stop hstop ↦ ensures_plus_bind (by omega) ?_)
  obtain ⟨hadd, hin⟩ := Option.filter_eq_some_iff.mp hstop
  rw [(checkedAdd_eq_some hadd).1, decide_eq_true_iff] at hin
  refine (ensures_align4 (by omega)).bind (fun next hnext ↦ ensures_pure ?_)
  exact ⟨by dsimp only; omega, hx.record name hin⟩

theorem ensures_readVersion (hb : b.length < 2 ^ 31) (ho : o < 2 ^ 32) :
    Ensures (readVersion b o) (fun x ↦ x.2 ≤ b.length) := by
  unfold readVersion
  refine ensures_plus_bind (by omega) (ensures_refuse.bind (fun _ _ ↦ ?_))
  refine (ensures_u32At (by omega)).bind (fun signature _ ↦ ensures_refuse.bind (fun _ _ ↦ ?_))
  refine ensures_u32At_bind (by omega) (fun verLen hlen ↦ ensures_refuse.bind (fun _ _ ↦ ?_))
  refine ensures_plus_bind (by omega) (ensures_okOr.bind (fun verBytes hbytes ↦ ?_))
  have hend : (verBytes.findIdx? (fun c ↦ c == 0)).getD verBytes.length ≤ verBytes.length := by
    cases hzero : verBytes.findIdx? (fun c ↦ c == 0) with
    | none => exact le_rfl
    | some n => exact (findIdx?_lt hzero).le
  refine (yields_sliceRange (Nat.zero_le _) hend).ensures.bind (fun text _ ↦ ensures_pure ?_)
  exact (getRange_eq_some hbytes).1

end Streams

section Widths

theorem strIdx_cases (c : Ctx) : c.strIdx = 2 ∨ c.strIdx = 4 := by
  unfold Ctx.strIdx
  split_ifs <;> simp

theorem guidIdx_cases (c : Ctx) : c.guidIdx = 2 ∨ c.guidIdx = 4 := by
  unfold Ctx.guidIdx
  split_ifs <;> simp

theorem blobIdx_cases (c : Ctx) : c.blobIdx = 2 ∨ c.blobIdx = 4 := by
  unfold Ctx.blobIdx
  split_ifs <;> simp

theorem simple_cases (c : Ctx) (t : ℕ) : c.simple t = 2 ∨ c.simple t = 4 := by
  unfold Ctx.simple
  split_ifs <;> simp

theorem coded_cases (c : Ctx) (tagBits : ℕ) (tables : List ℕ) :
    c.coded tagBits tables = 2 ∨ c.coded tagBits tables = 4 := by
  unfold Ctx.coded
  dsimp only
  split_ifs <;> simp

end Widths

section Layout

variable {len : ℕ} {valid : BitVec 64} {c : Ctx}

def Counts (valid : BitVec 64) (rows : ℕ → ℕ) : Prop :=
  ∀ t, rows t < 2 ^ 32 ∧ (rows t ≠ 0 → t < 64 ∧ valid.getLsbD t = true)

theorem ensures_readRowCount {x : ℕ × (ℕ → ℕ)} {first t : ℕ} (hfirst : first < 2 ^ 32) (ht : t < 64)
    (hp : x.1 ≤ first + 4 * t) (hx : Counts valid x.2) :
    Ensures (readRowCount b valid x t)
      (fun x ↦ x.1 ≤ first + 4 * (t + 1) ∧ Counts valid x.2) := by
  unfold readRowCount
  split_ifs with habsent
  · exact ensures_pure ⟨by omega, hx⟩
  · rw [Bool.not_eq_false] at habsent
    refine (ensures_u32At (by omega)).bind (fun count hcount ↦ ?_)
    refine ensures_plus_bind (by omega) (ensures_pure ⟨by dsimp only; omega, fun u ↦ ?_⟩)
    dsimp only
    by_cases hut : u = t
    · rw [hut, Function.update_self]
      exact ⟨hcount, fun _ ↦ ⟨ht, habsent⟩⟩
    · rw [Function.update_of_ne hut]
      exact hx u

theorem ensures_readTablesHeader (hb : b.length < 2 ^ 31) (ho : o ≤ b.length) :
    Ensures (readTablesHeader b o) (fun x ↦ Counts x.2.1 x.2.2) := by
  unfold readTablesHeader
  refine ensures_plus_bind (by omega) (ensures_refuse.bind (fun _ hin ↦ ?_))
  refine ensures_plus_bind (by omega) ?_
  refine (yields_index (by omega)).ensures.bind (fun heapSizes _ ↦ ensures_plus_bind (by omega) ?_)
  refine (ensures_u64At (by omega)).bind (fun valid _ ↦ ?_)
  refine (ensures_foldlM_range (I := fun t x ↦
    x.1 ≤ o + 24 + 4 * t ∧ Counts (BitVec.ofNat 64 valid) x.2) ?_ (fun x t ht hx ↦ ?_)).bind
    (fun x hx ↦ ensures_pure hx.2)
  · exact ⟨le_rfl, fun t ↦ ⟨by simp, fun h ↦ absurd rfl h⟩⟩
  · exact ensures_readRowCount (by omega) ht hx.1 hx.2

theorem ensures_rowSize (c : Ctx) (t : ℕ) : Ensures (rowSize t c) (· ≤ 64) := by
  have hstrings := strIdx_cases c
  have hguid := guidIdx_cases c
  have hblob := blobIdx_cases c
  have hsimple := simple_cases c
  have hcoded := coded_cases c
  unfold rowSize
  dsimp only
  split
  all_goals first
    | exact trivial
    | refine ensures_pure ?_
      grind

def Walked (len : ℕ) (valid : BitVec 64) (c : Ctx) (n : ℕ) (w : Walk) : Prop :=
  ∀ t < n, valid.getLsbD t = true →
    rowSize t c = .ok (sizeOf c t) ∧ w.offsets t + sizeOf c t * c.rows t ≤ len

theorem ensures_walkTable {w : Walk} {n : ℕ} (hrows : c.rows n < 2 ^ 32)
    (hw : Walked len valid c n w) : Ensures (walkTable len valid c w n) (Walked len valid c (n + 1)) := by
  unfold walkTable
  split_ifs with habsent
  · refine ensures_pure (fun t ht hpresent ↦ hw t ?_ hpresent)
    refine lt_of_le_of_ne (Nat.lt_succ_iff.mp ht) ?_
    rintro rfl
    rw [habsent] at hpresent
    cases hpresent
  · refine (ensures_of_ne_panic (ensures_rowSize c n).ne_panic).bind (fun rs hrs ↦ ?_)
    have hle : rs ≤ 64 := by
      have h := ensures_rowSize c n
      rw [hrs] at h
      exact h
    have hsizeOf : sizeOf c n = rs := by
      unfold Standard.sizeOf
      rw [hrs]
    have hsize : rs * c.rows n ≤ 64 * 2 ^ 32 := Nat.mul_le_mul hle hrows.le
    refine (yields_times (by omega)).ensures.bind ?_
    rintro _ rfl
    refine ensures_okOr.bind (fun cursor hcursor ↦ ensures_refuse.bind (fun _ hin ↦ ensures_pure ?_))
    intro t ht hpresent
    dsimp only
    by_cases htn : t = n
    · rw [htn, hsizeOf, Function.update_self, ← (checkedAdd_eq_some hcursor).1]
      exact ⟨hrs, Nat.le_of_not_lt hin⟩
    · rw [Function.update_of_ne htn]
      exact hw t (by omega) hpresent

/-- Where a file has its heaps and its tables: all inside the file. -/
structure WellPlaced (b : List UInt8) (l : Layout) : Prop where
  streams : StreamsInside b l.streams
  rows : ∀ t, l.ctx.rows t < 2 ^ 32
  tables : ∀ t, l.ctx.rows t ≠ 0 → rowSize t l.ctx = .ok (sizeOf l.ctx t) ∧
    l.offsets t + sizeOf l.ctx t * l.ctx.rows t ≤ b.length

theorem ensures_readLayout (hb : b.length < 2 ^ 31) (ho : o < 2 ^ 32) :
    Ensures (readLayout b o) (WellPlaced b) := by
  unfold readLayout
  refine (ensures_readVersion hb ho).bind (fun (runtimeVersion, verEnd) hend ↦ ?_)
  dsimp only at hend ⊢
  refine (ensures_align4 (by omega)).bind (fun p hp ↦ ?_)
  refine ensures_u16At_bind (by omega) (fun streamCount _ ↦ ensures_plus_bind (by omega) ?_)
  have hnone : Inside b none := fun x hx ↦ by cases hx
  refine (ensures_foldlM (I := fun x ↦ x.1 < 2 ^ 33 ∧ StreamsInside b x.2)
    ⟨by dsimp only; omega, hnone, hnone, hnone, hnone⟩
    (fun x i _ hx ↦ ensures_readStream hb ho hx.1 hx.2)).bind (fun (_, streams) hstreams ↦ ?_)
  refine ensures_okOr.bind (fun (tOff, tSize) htables ↦ ?_)
  have hinside := hstreams.2.tables _ htables
  dsimp only at hinside ⊢
  refine (ensures_readTablesHeader hb (by omega)).bind (fun (heapSizes, valid, rows) hcounts ↦ ?_)
  dsimp only at hcounts ⊢
  have hcount : (List.range 64).countP valid.getLsbD ≤ 64 := by
    exact List.countP_le_length.trans_eq List.length_range
  refine ensures_plus_bind (by omega) ((yields_times (by omega)).ensures.bind ?_)
  rintro _ rfl
  refine ensures_plus_bind (by omega) ?_
  refine (ensures_foldlM_range (I := Walked b.length valid (.ofHeapSizes heapSizes rows))
    (fun t ht ↦ absurd ht (Nat.not_lt_zero t))
    (fun w t ht hw ↦ ensures_walkTable (hcounts t).1 hw)).bind (fun w hw ↦ ensures_pure ?_)
  exact
    { streams := hstreams.2
      rows := fun t ↦ (hcounts t).1
      tables := fun t ht ↦ hw t ((hcounts t).2 ht).1 ((hcounts t).2 ht).2 }

end Layout

/-- Every header is read, or refused, without a panic, and then the file holds what they announce. -/
theorem ensures_readHeaders (hb : b.length < 2 ^ 31) :
    Ensures (Image.readHeaders b) (fun x ↦ WellPlaced b x.1) := by
  unfold Image.readHeaders
  refine ensures_readPeHeaders.bind (fun pe hpe ↦ ?_)
  refine (ensures_rvaToOffset hb hpe.1 hpe.2).bind (fun cliOff hcli ↦ ?_)
  refine (ensures_readCliHeader hcli).bind (fun cli hmetadata ↦ ?_)
  refine (ensures_rvaToOffset hb hmetadata hpe.2).bind (fun mdOff hmd ↦ ?_)
  exact (ensures_readLayout hb hmd).bind (fun l hl ↦ ensures_pure hl)

end Aldivine.Dotnet.Bounds
