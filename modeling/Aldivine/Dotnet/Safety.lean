import Aldivine.Dotnet.Rows

namespace Aldivine.Dotnet.Safety

open Foundation.Machine Foundation.Checked Tables Reader Standard Image Bounds Rows

variable {b : List UInt8} {l : Layout} {i : ℕ}

section Parts

variable (sha1 : Sha1) (hb : b.length < 2 ^ 31) (hl : WellPlaced b l)

include hb hl

theorem yields_readModule : Yields (readModule b l) (fun _ ↦ True) := by
  unfold readModule
  split_ifs with hrows
  · exact yields_pure trivial
  · refine ((spans_moduleColumns hb l.ctx).firstRow hl hrows).bind (fun (name, mvid) hmvid ↦ ?_)
    refine (yields_readString hb l.streams name).bind (fun _ _ ↦ ?_)
    exact (yields_readGuid hb hl.streams hmvid).bind (fun _ _ ↦ yields_pure trivial)

omit hl in
theorem yields_stringOrEmpty (idx : ℕ) : Yields (stringOrEmpty b l idx) (fun _ ↦ True) :=
  (yields_readString hb l.streams idx).bind (fun _ _ ↦ yields_pure trivial)

theorem yields_readIdentity : Yields (readIdentity sha1 b l) (fun _ ↦ True) := by
  unfold readIdentity
  split_ifs with hrows
  · exact yields_pure trivial
  · refine ((spans_assemblyColumns hb l.ctx).firstRow hl hrows).bind (fun row _ ↦ ?_)
    refine (yields_readBlob hb l.streams row.key).bind (fun pk _ ↦ ?_)
    refine (yields_stringOrEmpty hb row.name).bind (fun name _ ↦ ?_)
    refine (yields_readString hb l.streams row.culture).bind (fun culture _ ↦ ?_)
    refine Yields.bind (P := fun _ ↦ True) ?_ (fun _ _ ↦ yields_pure trivial)
    cases pk with
    | none => exact yields_pure trivial
    | some key => exact yields_publicKeyToken sha1 key

theorem yields_readReference (references : List AssemblyRef) (hi : i < l.ctx.rows 0x23) :
    Yields (readReference sha1 b l references i) (fun _ ↦ True) := by
  refine ((spans_referenceColumns hb l.ctx).atRow hb hl hi).bind (fun row _ ↦ ?_)
  refine (yields_readBlob hb l.streams row.key).bind (fun raw _ ↦ ?_)
  refine (yields_stringOrEmpty hb row.name).bind (fun name _ ↦ ?_)
  refine (yields_readString hb l.streams row.culture).bind (fun culture _ ↦ ?_)
  dsimp only
  split_ifs
  · exact yields_pure trivial
  · exact (yields_publicKeyToken sha1 _).bind (fun _ _ ↦ yields_pure trivial)
  · exact yields_pure trivial

omit hb hl in
theorem yields_attempt {α : Type} {x : Read α} {P : α → Prop} (hx : Yields x P) :
    Yields (attempt x) (fun a ↦ ∃ v, a = some v ∧ P v) := by
  obtain ⟨v, rfl, hv⟩ := hx
  exact ⟨some v, rfl, v, rfl, hv⟩

theorem yields_rowName {t row : ℕ} {columns : Columns (ℕ × ℕ)}
    (hcolumns : Spans b columns (Standard.sizeOf l.ctx t) (fun _ ↦ True)) :
    Yields (rowName b l t row columns) (fun _ ↦ True) := by
  unfold rowName
  split_ifs with hrow
  · exact yields_pure trivial
  · have hin : row < l.ctx.rows t := Nat.lt_of_not_le hrow
    rw [(hl.tables t (by omega)).1]
    refine (yields_attempt (hcolumns.atRow hb hl hin)).bind ?_
    rintro _ ⟨⟨n, ns⟩, rfl, -⟩
    refine (yields_readString hb l.streams ns).bind (fun _ _ ↦ ?_)
    exact (yields_readString hb l.streams n).bind (fun _ _ ↦ yields_pure trivial)

theorem yields_typedefOrRefName (coded : ℕ) :
    Yields (typedefOrRefName b l coded) (fun _ ↦ True) := by
  unfold typedefOrRefName
  dsimp only
  split_ifs
  · exact yields_pure trivial
  · refine yields_rowName hb hl (((spans_typeDefNameColumns hb l.ctx).bind fun x _ ↦
      spans_pure trivial).mono ?_)
    rw [@sizeOf_eq l.ctx 0x02 _ rfl]
    omega
  · exact yields_rowName hb hl (spans_typeRefColumns hb l.ctx)
  · exact yields_pure trivial

theorem yields_readType (types : List TypeDefInfo) (hi : i < l.ctx.rows 0x02) :
    Yields (readType b l (Standard.sizeOf l.ctx 0x02) types i) (fun _ ↦ True) := by
  unfold readType
  refine ((spans_typeDefColumns hb l.ctx).atRow hb hl hi).bind (fun x _ ↦ ?_)
  obtain ⟨⟨flags, n, ns⟩, extends'⟩ := x
  refine (yields_stringOrEmpty hb n).bind (fun name _ ↦ ?_)
  refine (yields_stringOrEmpty hb ns).bind (fun ns _ ↦ ?_)
  dsimp only
  split_ifs
  · exact yields_pure trivial
  · exact (yields_typedefOrRefName hb hl extends').bind (fun _ _ ↦ yields_pure trivial)

theorem yields_readTypes : Yields (readTypes b l) (fun _ ↦ True) := by
  unfold readTypes
  split_ifs
  · exact yields_pure trivial
  · change Yields ((List.range _).foldlM (readType b l (Standard.sizeOf l.ctx 0x02)) []) _
    exact yields_foldlM trivial (fun types i hi _ ↦ yields_readType hb hl types (List.mem_range.mp hi))

theorem yields_readPinvoke (pinvokes : List Pinvoke) (hi : i < l.ctx.rows 0x1c) :
    Yields (readPinvoke b l (Standard.sizeOf l.ctx 0x1c) (Standard.sizeOf l.ctx 0x1a) pinvokes i)
      (fun _ ↦ True) := by
  unfold readPinvoke
  refine ((spans_implMapColumns hb l.ctx).atRow hb hl hi).bind (fun (iname, scope) _ ↦ ?_)
  dsimp only
  split_ifs with hscope
  · exact yields_pure trivial
  · refine (yields_minus (by omega)).bind ?_
    rintro _ rfl
    refine ((spans_moduleRefColumns hb l.ctx).atRow hb hl (by omega)).bind (fun mname _ ↦ ?_)
    refine (yields_stringOrEmpty hb mname).bind (fun «module» _ ↦ ?_)
    refine (yields_stringOrEmpty hb iname).bind (fun function _ ↦ ?_)
    split_ifs
    · exact yields_pure trivial
    · exact yields_pure trivial

theorem yields_readPinvokes : Yields (readPinvokes b l) (fun _ ↦ True) := by
  unfold readPinvokes
  split_ifs
  · exact yields_pure trivial
  · change Yields ((List.range _).foldlM
      (readPinvoke b l (Standard.sizeOf l.ctx 0x1c) (Standard.sizeOf l.ctx 0x1a)) []) _
    exact yields_foldlM trivial
      (fun pinvokes i hi _ ↦ yields_readPinvoke hb hl pinvokes (List.mem_range.mp hi))

end Parts

section Attributes

def attributeType (b : List UInt8) (l : Layout) (i : ℕ) : ℕ :=
  columnAt b (l.ctx.coded 3 [0, 0, 0x06, 0x0a, 0])
    (l.offsets 0x0c + i * Standard.sizeOf l.ctx 0x0c + l.ctx.coded 5 hasCustomAttribute)

def memberClass (b : List UInt8) (l : Layout) (i : ℕ) : ℕ :=
  columnAt b (l.ctx.coded 3 [0x02, 0x01, 0x1a, 0x06, 0x1b])
    (l.offsets 0x0a + i * Standard.sizeOf l.ctx 0x0a)

/-- The constructor is row 0 of MemberRef, or a member of row 0 of TypeRef; rows count from 1. -/
def NullConstructor (b : List UInt8) (l : Layout) (i : ℕ) : Prop :=
  attributeType b l i = 3 ∨
    (attributeType b l i % 2 ^ 3 = 3 ∧ 0 < attributeType b l i / 2 ^ 3 ∧
      attributeType b l i / 2 ^ 3 ≤ l.ctx.rows 0x0a ∧
      memberClass b l (attributeType b l i / 2 ^ 3 - 1) = 1)

variable (hb : b.length < 2 ^ 31) (hl : WellPlaced b l)

include hb hl

theorem atRow_attributeColumns (hi : i < l.ctx.rows 0x0c) :
    Image.atRow l 0x0c (Standard.sizeOf l.ctx 0x0c) i (attributeColumns b l.ctx) =
      .ok (attributeType b l i) := by
  rw [atRow_eq hb hl hi]
  refine run'_skip_idx hb (coded_cases l.ctx _ _) ((Nat.add_assoc _ _ _).trans_le ?_)
  refine le_trans (Nat.add_le_add_left ?_ _) (row_inside hl hi)
  rw [@sizeOf_eq l.ctx 0x0c _ rfl]
  exact Nat.le_add_right _ _

theorem atRow_memberRefColumns (hi : i < l.ctx.rows 0x0a) :
    Image.atRow l 0x0a (Standard.sizeOf l.ctx 0x0a) i (memberRefColumns b l.ctx) =
      .ok (memberClass b l i) := by
  rw [atRow_eq hb hl hi]
  refine run'_idx hb (coded_cases l.ctx _ _) (le_trans (Nat.add_le_add_left ?_ _) (row_inside hl hi))
  rw [@sizeOf_eq l.ctx 0x0a _ rfl, Nat.add_assoc]
  exact Nat.le_add_right _ _

theorem readAttributeClass_eq (trSize : ℕ) (seen : List String) (hi : i < l.ctx.rows 0x0a) :
    readAttributeClass b l (Standard.sizeOf l.ctx 0x0a) trSize i seen =
      if memberClass b l i % 2 ^ 3 ≠ 1 then pure seen
      else minus (memberClass b l i / 2 ^ 3) 1 >>= fun trRow ↦
        if l.ctx.rows 0x01 ≤ trRow then pure seen
        else readAttributeName b l trSize trRow seen := by
  unfold readAttributeClass
  rw [atRow_memberRefColumns hb hl hi, ok_bind]

theorem readAttribute_eq (mrSize trSize : ℕ) (seen : List String) (hi : i < l.ctx.rows 0x0c) :
    readAttribute b l (Standard.sizeOf l.ctx 0x0c) mrSize trSize seen i =
      if attributeType b l i % 2 ^ 3 ≠ 3 then pure seen
      else minus (attributeType b l i / 2 ^ 3) 1 >>= fun mrRow ↦
        if l.ctx.rows 0x0a ≤ mrRow then pure seen
        else readAttributeClass b l mrSize trSize mrRow seen := by
  unfold readAttribute
  rw [atRow_attributeColumns hb hl hi, ok_bind]

/-- One round of the loop over the attributes, as `readAttributes` runs it. -/
def attributeRound (b : List UInt8) (l : Layout) : List String → ℕ → Read (List String) :=
  readAttribute b l (Standard.sizeOf l.ctx 0x0c) (Standard.sizeOf l.ctx 0x0a)
    (Standard.sizeOf l.ctx 0x01)

theorem attributeRound_panics (seen : List String) (hi : i < l.ctx.rows 0x0c)
    (hnull : NullConstructor b l i) : attributeRound b l seen i = .panic := by
  unfold attributeRound
  rw [readAttribute_eq hb hl _ _ seen hi]
  rcases hnull with hthree | ⟨htag, hpos, hrow, hclass⟩
  · rw [hthree]
    rfl
  · have hone : 1 ≤ attributeType b l i / 2 ^ 3 := hpos
    have hin : attributeType b l i / 2 ^ 3 - 1 < l.ctx.rows 0x0a := by omega
    obtain ⟨_, hminus, rfl⟩ := yields_minus (ε := CliError) hone
    rw [if_neg (not_not.mpr htag), hminus, ok_bind, if_neg (Nat.not_le.mpr hin),
      readAttributeClass_eq hb hl _ seen hin, hclass]
    rfl

theorem yields_readAttributeName (seen : List String) (hi : i < l.ctx.rows 0x01) :
    Yields (readAttributeName b l (Standard.sizeOf l.ctx 0x01) i seen) (fun _ ↦ True) := by
  unfold readAttributeName
  refine ((spans_typeRefColumns hb l.ctx).atRow hb hl hi).bind (fun (n, ns) _ ↦ ?_)
  refine (yields_stringOrEmpty hb n).bind (fun name _ ↦ ?_)
  refine (yields_stringOrEmpty hb ns).bind (fun ns _ ↦ ?_)
  dsimp only
  split_ifs <;> exact yields_pure trivial

theorem yields_attributeRound (seen : List String) (hi : i < l.ctx.rows 0x0c)
    (hnull : ¬NullConstructor b l i) : Yields (attributeRound b l seen i) (fun _ ↦ True) := by
  obtain ⟨hthree, hmember⟩ := not_or.mp hnull
  unfold attributeRound
  rw [readAttribute_eq hb hl _ _ seen hi]
  split_ifs with htag
  · exact yields_pure trivial
  · rw [not_not] at htag
    have hpos : 1 ≤ attributeType b l i / 2 ^ 3 := by omega
    refine (yields_minus hpos).bind ?_
    rintro _ rfl
    split_ifs with hrow
    · exact yields_pure trivial
    · rw [readAttributeClass_eq hb hl _ seen (by omega)]
      split_ifs with hclass
      · exact yields_pure trivial
      · have hone : memberClass b l (attributeType b l i / 2 ^ 3 - 1) ≠ 1 :=
          fun h ↦ hmember ⟨htag, hpos, by omega, h⟩
        refine (yields_minus (by omega)).bind ?_
        rintro _ rfl
        split_ifs with htype
        · exact yields_pure trivial
        · exact yields_readAttributeName hb hl seen (by omega)

theorem readAttributes_eq_panic_iff :
    readAttributes b l = .panic ↔
      l.ctx.rows 0x01 ≠ 0 ∧ ∃ i < l.ctx.rows 0x0c, NullConstructor b l i := by
  unfold readAttributes
  split_ifs with hrows
  · refine iff_of_false (fun h ↦ by cases h) (fun ⟨htypes, i, hi, _⟩ ↦ ?_)
    omega
  · have hloop : (List.range (l.ctx.rows 0x0c)).foldlM (attributeRound b l) [] = .panic ↔
        ∃ i ∈ List.range (l.ctx.rows 0x0c), NullConstructor b l i :=
      foldlM_eq_panic_iff
        (fun seen i hi ↦ attributeRound_panics hb hl seen (List.mem_range.mp hi))
        (fun seen i hi ↦ yields_attributeRound hb hl seen (List.mem_range.mp hi)) []
    simp only [List.mem_range] at hloop
    rw [and_iff_right (by omega), ← hloop]
    change (List.range _).foldlM (attributeRound b l) [] >>= _ = .panic ↔ _
    rw [bind_eq_panic_iff]
    exact or_iff_left (fun ⟨_, _, h⟩ ↦ by cases h)

/-- Nothing but the constructors of the attributes makes the reading panic. -/
theorem readImage_eq_panic_iff (sha1 : Sha1) (clrFlags entryPointToken : ℕ) :
    readImage sha1 b l clrFlags entryPointToken = .panic ↔
      l.ctx.rows 0x01 ≠ 0 ∧ ∃ i < l.ctx.rows 0x0c, NullConstructor b l i := by
  rw [← readAttributes_eq_panic_iff hb hl]
  unfold readImage
  refine (yields_readModule hb hl).bind_panic_iff (fun (moduleName, mvid) _ ↦ ?_)
  refine (yields_readIdentity sha1 hb hl).bind_panic_iff (fun assembly _ ↦ ?_)
  have hreferences := @yields_foldlM CliError (List AssemblyRef) ℕ (fun _ ↦ True)
    (readReference sha1 b l) (List.range (l.ctx.rows 0x23)) [] trivial
    (fun references i hi _ ↦ yields_readReference sha1 hb hl references (List.mem_range.mp hi))
  refine hreferences.bind_panic_iff (fun references _ ↦ ?_)
  rw [bind_eq_panic_iff]
  refine or_iff_left (fun ⟨names, _, hrest⟩ ↦ ?_)
  refine Ensures.ne_panic (P := fun _ ↦ True) ?_ hrest
  refine (yields_readTypes hb hl).ensures.bind (fun types _ ↦ ?_)
  exact (yields_readPinvokes hb hl).ensures.bind (fun _ _ ↦ ensures_pure trivial)

end Attributes

section Files

/-- The headers lead to a CustomAttribute row whose constructor is a row 0. -/
def NullReference (b : List UInt8) : Prop :=
  ∃ l cli, readHeaders b = .ok (l, cli) ∧
    l.ctx.rows 0x01 ≠ 0 ∧ ∃ i < l.ctx.rows 0x0c, NullConstructor b l i

theorem readAssembly_eq_panic_iff (sha1 : Sha1) (hb : b.length < 2 ^ 31) :
    readAssembly sha1 b = .panic ↔ NullReference b := by
  have hheaders := ensures_readHeaders hb
  unfold readAssembly NullReference
  rw [bind_eq_panic_iff, or_iff_right hheaders.ne_panic]
  constructor
  · rintro ⟨⟨l, cli⟩, hok, hpanic⟩
    rw [hok] at hheaders
    exact ⟨l, cli, hok, (readImage_eq_panic_iff hb hheaders sha1 _ _).mp hpanic⟩
  · rintro ⟨l, cli, hok, hnull⟩
    rw [hok] at hheaders
    exact ⟨(l, cli), hok, (readImage_eq_panic_iff hb hheaders sha1 _ _).mpr hnull⟩

/-- Reading finishes with an image or an error exactly when no attribute has row 0 for its
constructor. -/
theorem readAssembly_finishes_iff (sha1 : Sha1) (b : List UInt8) (hb : b.length < 2 ^ 31) :
    ((∃ image, readAssembly sha1 b = .ok image) ∨ ∃ e, readAssembly sha1 b = .err e) ↔
      ¬NullReference b := by
  rw [← readAssembly_eq_panic_iff sha1 hb]
  cases readAssembly sha1 b <;> simp

def zeros (n : ℕ) : List UInt8 := List.replicate n 0

/-- A file with one TypeRef row and one CustomAttribute row, with this Type column. -/
def attributeFile (column : UInt8) : List UInt8 :=
  -- the DOS header, and from 0x40 the PE signature and a COFF header without sections
  [0x4D, 0x5A] ++ zeros 58 ++ [0x40, 0, 0, 0] ++ [0x50, 0x45, 0, 0] ++ zeros 20 ++
  -- the optional header: RVAs below 0x1000 are offsets, and there are 16 data directories
  [0x0b, 0x01] ++ zeros 58 ++ [0, 0x10, 0, 0] ++ zeros 28 ++ [16, 0, 0, 0] ++
  -- directory 14, and from 0x130 the CLI header
  zeros 112 ++ [0x30, 0x01, 0, 0, 72, 0, 0, 0] ++ zeros 8 ++ [0x78, 0x01, 0, 0] ++ zeros 60 ++
  -- from 0x178 the metadata root, with the stream of the tables at 0x19c
  [0x42, 0x53, 0x4a, 0x42] ++ zeros 8 ++ [4, 0, 0, 0, 0x76, 0x34, 0, 0, 0, 0, 1, 0] ++
  [0x24, 0, 0, 0, 44, 0, 0, 0, 0x23, 0x7e, 0, 0] ++
  -- the tables 0x01 and 0x0c are present, with one row each
  zeros 8 ++ [0x02, 0x10, 0, 0, 0, 0, 0, 0] ++ zeros 8 ++ [1, 0, 0, 0, 1, 0, 0, 0] ++
  zeros 6 ++ [0, 0, column, 0, 0, 0]

/-- A constructor is row 1 of MemberRef, which the file does not have; the attribute is passed over. -/
theorem readAssembly_finishes_attribute :
    (∃ image, readAssembly (fun _ ↦ Vector.replicate 20 0) (attributeFile 11) = .ok image) ∧
      ¬NullReference (attributeFile 11) := by
  have hread : (match readAssembly (fun _ ↦ Vector.replicate 20 0) (attributeFile 11) with
      | .ok _ => true
      | .err _ => false
      | .panic => false) = true := by decide +kernel
  have hok : ∃ image,
      readAssembly (fun _ ↦ Vector.replicate 20 0) (attributeFile 11) = .ok image := by
    cases hcase : readAssembly (fun _ ↦ Vector.replicate 20 0) (attributeFile 11) with
    | ok image => exact ⟨image, rfl⟩
    | err e =>
      rw [hcase] at hread
      cases hread
    | panic =>
      rw [hcase] at hread
      cases hread
  refine ⟨hok, (readAssembly_finishes_iff (fun _ ↦ Vector.replicate 20 0) _ ?_).mp (.inl hok)⟩
  decide +kernel

def nullAttribute : List UInt8 := attributeFile 3

theorem nullAttribute_panics :
    (fun sha1 ↦ readAssembly sha1 nullAttribute) = fun _ ↦ .panic := by
  have hlayout : (match readHeaders nullAttribute with
      | .ok (l, _) => decide (l.ctx.rows 0x01 = 1 ∧ l.ctx.rows 0x0c = 1 ∧
          attributeType nullAttribute l 0 = 3)
      | .err _ => false
      | .panic => false) = true := by decide +kernel
  have hlength : nullAttribute.length < 2 ^ 31 := by decide +kernel
  funext sha1
  rw [readAssembly_eq_panic_iff sha1 hlength]
  cases hheaders : readHeaders nullAttribute with
  | ok x =>
    rw [hheaders] at hlayout
    obtain ⟨htypes, hattributes, htype⟩ := of_decide_eq_true hlayout
    exact ⟨x.1, x.2, hheaders, by omega, 0, by omega, .inl htype⟩
  | err e =>
    rw [hheaders] at hlayout
    cases hlayout
  | panic =>
    rw [hheaders] at hlayout
    cases hlayout

end Files

end Aldivine.Dotnet.Safety
