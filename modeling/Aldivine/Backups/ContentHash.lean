import Aldivine.Backups.Archives
import Aldivine.Foundation.Utf8
import Aldivine.Foundation.Wire

namespace Aldivine.Backups.ContentHash

open Archives Foundation.Text Foundation.Utf8 Foundation.Wire

def entryBytes (entry : BackupEntry) : List UInt8 :=
  utf8 entry.relativePath ++ (utf8 entry.sha256Hex ++ toLE 8 entry.sizeBytes.toNat)

/-- What `compute_content_hash` feeds to the hasher. -/
def contentBytes (m : BackupManifest) : List UInt8 :=
  utf8 m.backupId ++ (utf8 m.serverVersion ++ (toLE 8 m.dbMigrationVersion.toNat ++
    m.entries.flatMap entryBytes))

def computeContentHash (sha256 : List UInt8 → String) (m : BackupManifest) : String :=
  sha256 (contentBytes m)

structure Agree (m m' : BackupManifest) : Prop where
  backupId : m.backupId = m'.backupId
  serverVersion : m.serverVersion = m'.serverVersion
  dbMigrationVersion : m.dbMigrationVersion = m'.dbMigrationVersion
  entries : m.entries = m'.entries

/-- No manifest that differs from this one in a hashed field feeds the same bytes. -/
def Determined (m : BackupManifest) : Prop :=
  ∀ m', contentBytes m' = contentBytes m → Agree m' m

abbrev Piece := List Char × BitVec 64

def pieceBytes (p : Piece) : List UInt8 := encode p.1 ++ toLE 8 p.2.toNat

/-- All that can be told from the bytes are the numbers and the texts between them. -/
def pieces (m : BackupManifest) : List Piece :=
  ((m.backupId ++ m.serverVersion).toList, m.dbMigrationVersion) ::
    m.entries.map (fun e ↦ ((e.relativePath ++ e.sha256Hex).toList, e.sizeBytes))

def tokenBytes : Char ⊕ BitVec 64 → List UInt8
  | .inl c => encode [c]
  | .inr x => toLE 8 x.toNat

/-- The bytes are those of characters and numbers in some order, with one character at least. -/
def Legible (bytes : List UInt8) : Prop :=
  ∃ tokens : List (Char ⊕ BitVec 64), (∃ c, .inl c ∈ tokens) ∧ tokens.flatMap tokenBytes = bytes

/-- There is no text, and none can be read from the numbers before the last. -/
structure Textless (m : BackupManifest) : Prop where
  empty : ∀ p ∈ pieces m, p.1 = []
  illegible : ¬Legible ((pieces m).dropLast.flatMap (fun p ↦ toLE 8 p.2.toNat))

variable {m m' : BackupManifest}

theorem entryBytes_eq (e : BackupEntry) :
    entryBytes e = pieceBytes ((e.relativePath ++ e.sha256Hex).toList, e.sizeBytes) := by
  rw [entryBytes, pieceBytes, String.toList_append, encode_append, ← utf8_eq_encode,
    ← utf8_eq_encode, List.append_assoc]

theorem contentBytes_eq (m : BackupManifest) :
    contentBytes m = (pieces m).flatMap pieceBytes := by
  have hentries : m.entries.flatMap entryBytes =
      (m.entries.map (fun e ↦ ((e.relativePath ++ e.sha256Hex).toList, e.sizeBytes))).flatMap
        pieceBytes := by
    rw [List.flatMap_map]
    exact congrArg (m.entries.flatMap ·) (funext entryBytes_eq)
  rw [contentBytes, pieces, List.flatMap_cons, hentries, pieceBytes, String.toList_append,
    encode_append, ← utf8_eq_encode, ← utf8_eq_encode]
  simp only [List.append_assoc]

section Cuts

def recut (a b : String) : String × String := if a = "" then (b, "") else ("", a ++ b)

theorem recut_bytes (a b : String) :
    utf8 (recut a b).1 ++ utf8 (recut a b).2 = utf8 a ++ utf8 b := by
  unfold recut
  split_ifs with h
  · rw [h, utf8_empty, List.append_nil, List.nil_append]
  · rw [utf8_empty, List.nil_append, utf8_append]

theorem recut_ne {a b : String} (h : (a ++ b).toList ≠ []) : recut a b ≠ (a, b) := by
  unfold recut
  split_ifs with ha
  · intro heq
    obtain ⟨rfl, rfl⟩ := Prod.mk.inj heq
    exact h rfl
  · intro heq
    exact ha (Prod.mk.inj heq).1.symm

/-- A manifest with a text is not told from the one where the text is cut elsewhere. -/
theorem Determined.empty (h : Determined m) : ∀ p ∈ pieces m, p.1 = [] := by
  intro p hp
  by_contra hne
  rcases List.mem_cons.mp hp with rfl | hp
  · have hsame : contentBytes { m with
        backupId := (recut m.backupId m.serverVersion).1
        serverVersion := (recut m.backupId m.serverVersion).2 } = contentBytes m := by
      simp only [contentBytes]
      rw [← List.append_assoc, recut_bytes, List.append_assoc]
    have hagree := h _ hsame
    exact recut_ne hne (Prod.ext hagree.backupId hagree.serverVersion)
  · obtain ⟨e, he, rfl⟩ := List.mem_map.mp hp
    obtain ⟨before, after, hsplit⟩ := List.append_of_mem he
    let e' : BackupEntry := { e with
      relativePath := (recut e.relativePath e.sha256Hex).1
      sha256Hex := (recut e.relativePath e.sha256Hex).2 }
    have hentry : entryBytes e' = entryBytes e := by
      simp only [entryBytes, e']
      rw [← List.append_assoc, recut_bytes, List.append_assoc]
    have hsame : contentBytes { m with entries := before ++ e' :: after } = contentBytes m := by
      simp only [contentBytes, hsplit, List.flatMap_append, List.flatMap_cons, hentry]
    have hentries := (h _ hsame).entries
    rw [hsplit, List.append_right_inj, List.cons.injEq] at hentries
    have hcut := congrArg (fun e : BackupEntry ↦ (e.relativePath, e.sha256Hex)) hentries.1
    exact recut_ne hne hcut

end Cuts

section Tokens

/-- The characters and numbers of the pieces, and of a text behind them. -/
def tokensOf (init : List Piece) (t : List Char) : List (Char ⊕ BitVec 64) :=
  init.flatMap (fun p ↦ p.1.map .inl ++ [.inr p.2]) ++ t.map .inl

theorem flatMap_tokensOf (init : List Piece) (t : List Char) :
    (tokensOf init t).flatMap tokenBytes = init.flatMap pieceBytes ++ encode t := by
  have hchars : ∀ t : List Char, (t.map Sum.inl).flatMap tokenBytes = encode t := by
    intro t
    rw [List.flatMap_map]
    simp [tokenBytes, encode]
  rw [tokensOf, List.flatMap_append, hchars, List.flatMap_assoc]
  congr 2
  funext p
  rw [List.flatMap_append, hchars, List.flatMap_singleton]
  rfl

/-- Characters and numbers are numbers with texts before them, and a text. -/
theorem gather (tokens : List (Char ⊕ BitVec 64)) :
    ∃ (init : List Piece) (t : List Char),
      init.flatMap pieceBytes ++ encode t = tokens.flatMap tokenBytes ∧
      ((∃ c, .inl c ∈ tokens) → t = [] → ∃ p ∈ init, p.1 ≠ []) := by
  induction tokens with
  | nil => exact ⟨[], [], rfl, fun h ↦ by simp at h⟩
  | cons token tokens ih =>
    obtain ⟨init, t, hbytes, htext⟩ := ih
    cases token with
    | inr x =>
      refine ⟨([], x) :: init, t, ?_, fun hc ht ↦ ?_⟩
      · rw [List.flatMap_cons, List.flatMap_cons, ← hbytes]
        simp [pieceBytes, tokenBytes]
      · obtain ⟨c, hc⟩ := hc
        obtain ⟨p, hp, hne⟩ := htext ⟨c, by simpa using hc⟩ ht
        exact ⟨p, List.mem_cons_of_mem _ hp, hne⟩
    | inl c =>
      cases init with
      | nil =>
        refine ⟨[], c :: t, ?_, fun _ ht ↦ by cases ht⟩
        rw [List.flatMap_cons, ← hbytes]
        simp [tokenBytes]
      | cons p init =>
        refine ⟨(c :: p.1, p.2) :: init, t, ?_, fun _ _ ↦ ⟨_, List.mem_cons_self, by simp⟩⟩
        rw [List.flatMap_cons, List.flatMap_cons, ← hbytes, List.flatMap_cons]
        simp [pieceBytes, tokenBytes]

theorem mem_tokensOf {init : List Piece} {t : List Char} (h : t ≠ [] ∨ ∃ p ∈ init, p.1 ≠ []) :
    ∃ c, .inl c ∈ tokensOf init t := by
  obtain ht | ⟨p, hp, hne⟩ := h
  · obtain ⟨c, hc⟩ := List.exists_mem_of_ne_nil t ht
    exact ⟨c, List.mem_append_right _ (List.mem_map_of_mem hc)⟩
  · obtain ⟨c, hc⟩ := List.exists_mem_of_ne_nil p.1 hne
    refine ⟨c, List.mem_append_left _ (List.mem_flatMap.mpr ⟨p, hp, ?_⟩)⟩
    exact List.mem_append_left _ (List.mem_map_of_mem hc)

end Tokens

theorem pieces_split (m : BackupManifest) : ∃ init last, pieces m = init ++ [last] :=
  (List.eq_nil_or_concat' (pieces m)).resolve_left (List.cons_ne_nil _ _)

theorem flatMap_empty {ps : List Piece} (h : ∀ p ∈ ps, p.1 = []) :
    ps.flatMap pieceBytes = ps.flatMap (fun p ↦ toLE 8 p.2.toNat) := by
  refine List.flatMap_congr (fun p hp ↦ ?_)
  rw [pieceBytes, h p hp, encode_nil, List.nil_append]

theorem toLE_injective : Function.Injective (fun x : BitVec 64 ↦ toLE 8 x.toNat) := by
  intro x y h
  have hx : x.toNat < 256 ^ 8 := x.isLt
  have hy : y.toNat < 256 ^ 8 := y.isLt
  apply BitVec.eq_of_toNat_eq
  rw [← ofLE_toLE_of_lt hx, ← ofLE_toLE_of_lt hy]
  exact congrArg ofLE h

theorem pieceBytes_empty {p : Piece} (h : p.1 = []) : pieceBytes p = toLE 8 p.2.toNat := by
  rw [pieceBytes, h, encode_nil, List.nil_append]

/-- Numbers of one width are told from their bytes. -/
theorem pieces_injective {ps qs : List Piece} (hp : ∀ p ∈ ps, p.1 = []) (hq : ∀ q ∈ qs, q.1 = [])
    (h : ps.flatMap pieceBytes = qs.flatMap pieceBytes) : ps = qs := by
  induction ps generalizing qs with
  | nil =>
    cases qs with
    | nil => rfl
    | cons q qs =>
      have hlength := congrArg List.length h
      rw [List.flatMap_cons, pieceBytes_empty (hq q List.mem_cons_self), List.length_append,
        length_toLE, List.flatMap_nil, List.length_nil] at hlength
      omega
  | cons p ps ih =>
    obtain ⟨hp, hps⟩ := List.forall_mem_cons.mp hp
    cases qs with
    | nil =>
      have hlength := congrArg List.length h
      rw [List.flatMap_cons, pieceBytes_empty hp, List.length_append, length_toLE,
        List.flatMap_nil, List.length_nil] at hlength
      omega
    | cons q qs =>
      obtain ⟨hq, hqs⟩ := List.forall_mem_cons.mp hq
      rw [List.flatMap_cons, List.flatMap_cons, pieceBytes_empty hp, pieceBytes_empty hq] at h
      obtain ⟨hnumber, hrest⟩ := List.append_inj h (by rw [length_toLE, length_toLE])
      rw [ih hps hqs hrest, Prod.ext (hp.trans hq.symm) (toLE_injective hnumber)]

def ofPieces (m : BackupManifest) (p : Piece) (ps : List Piece) : BackupManifest :=
  { m with
      backupId := String.ofList p.1
      serverVersion := ""
      dbMigrationVersion := p.2
      entries := ps.map (fun q ↦ ⟨String.ofList q.1, "", q.2⟩) }

theorem pieces_ofPieces (m : BackupManifest) (p : Piece) (ps : List Piece) :
    pieces (ofPieces m p ps) = p :: ps := by
  simp [pieces, ofPieces, Function.comp_def]

theorem pieces_agree (h : Agree m' m) : pieces m' = pieces m := by
  rw [pieces, pieces, h.backupId, h.serverVersion, h.dbMigrationVersion, h.entries]

theorem append_toList_eq_nil {a b : String} (h : (a ++ b).toList = []) : a = "" ∧ b = "" := by
  rw [String.toList_append, List.append_eq_nil_iff, String.toList_eq_nil_iff,
    String.toList_eq_nil_iff] at h
  exact h

theorem entries_eq (h : ∀ p ∈ pieces m, p.1 = []) :
    m.entries = (pieces m).tail.map (fun p ↦ ⟨"", "", p.2⟩) := by
  rw [pieces, List.tail_cons, List.map_map]
  refine (List.map_id' m.entries).symm.trans (List.map_congr_left (fun e he ↦ ?_))
  obtain ⟨hpath, hsha⟩ :=
    append_toList_eq_nil (h _ (List.mem_cons_of_mem _ (List.mem_map_of_mem he)))
  cases e
  subst hpath hsha
  rfl

theorem agree_of_pieces (h : pieces m' = pieces m) (hempty : ∀ p ∈ pieces m, p.1 = []) :
    Agree m' m := by
  have hempty' : ∀ p ∈ pieces m', p.1 = [] := h ▸ hempty
  obtain ⟨hid, hversion⟩ := append_toList_eq_nil (hempty _ List.mem_cons_self)
  obtain ⟨hid', hversion'⟩ := append_toList_eq_nil (hempty' _ List.mem_cons_self)
  refine ⟨hid'.trans hid.symm, hversion'.trans hversion.symm, ?_, ?_⟩
  · exact congrArg Prod.snd (List.cons.inj h).1
  · rw [entries_eq hempty', entries_eq hempty, h]

/-- The bytes of pieces, and of the last number by itself. -/
theorem flatMap_concat (init : List Piece) (last : Piece) :
    (init ++ [last]).flatMap pieceBytes =
      (init.flatMap pieceBytes ++ encode last.1) ++ toLE 8 last.2.toNat := by
  rw [List.flatMap_append, List.flatMap_singleton, pieceBytes, List.append_assoc]

theorem Determined.illegible (h : Determined m) :
    ¬Legible ((pieces m).dropLast.flatMap (fun p ↦ toLE 8 p.2.toNat)) := by
  intro hlegible
  have hempty := h.empty
  obtain ⟨init, last, hsplit⟩ := pieces_split m
  obtain ⟨tokens, hchar, htokens⟩ := hlegible
  obtain ⟨init', t, hbytes, htext⟩ := gather tokens
  obtain ⟨p, ps, hps⟩ : ∃ p ps, init' ++ [(t, last.2)] = p :: ps :=
    List.exists_cons_of_ne_nil (List.concat_ne_nil _ _)
  rw [hsplit, List.dropLast_concat] at htokens
  have hinit : ∀ q ∈ init, q.1 = [] :=
    fun q hq ↦ hempty q (hsplit ▸ List.mem_append_left _ hq)
  have hlast : last.1 = [] := hempty last (hsplit ▸ by simp)
  have hsame : contentBytes (ofPieces m p ps) = contentBytes m := by
    rw [contentBytes_eq, contentBytes_eq, pieces_ofPieces, ← hps, hsplit, flatMap_concat,
      flatMap_concat, hlast, encode_nil, List.append_nil, hbytes, htokens, flatMap_empty hinit]
  have hagree := pieces_agree (h _ hsame)
  rw [pieces_ofPieces, ← hps] at hagree
  have hnone : ∀ q ∈ init' ++ [(t, last.2)], q.1 = [] := hagree ▸ hempty
  obtain ⟨q, hq, hne⟩ := htext hchar (hnone (t, last.2) (by simp))
  exact hne (hnone q (List.mem_append_left _ hq))

theorem Textless.determined (h : Textless m) : Determined m := by
  intro m' hsame
  obtain ⟨init, last, hsplit⟩ := pieces_split m
  obtain ⟨init', last', hsplit'⟩ := pieces_split m'
  have hinit : ∀ q ∈ init, q.1 = [] :=
    fun q hq ↦ h.empty q (hsplit ▸ List.mem_append_left _ hq)
  have hlast : last.1 = [] := h.empty last (hsplit ▸ by simp)
  rw [contentBytes_eq, contentBytes_eq, hsplit, hsplit', flatMap_concat, flatMap_concat] at hsame
  obtain ⟨hfront, -⟩ := List.append_inj' hsame (by rw [length_toLE, length_toLE])
  have hempty' : ∀ p ∈ pieces m', p.1 = [] := by
    intro p hp
    by_contra hne
    refine h.illegible ⟨tokensOf init' last'.1, mem_tokensOf ?_, ?_⟩
    · rw [hsplit', List.mem_append, List.mem_singleton] at hp
      rcases hp with hp | rfl
      · exact .inr ⟨p, hp, hne⟩
      · exact .inl hne
    · rw [flatMap_tokensOf, hfront, hsplit, List.dropLast_concat, hlast, encode_nil,
        List.append_nil, flatMap_empty hinit]
  refine agree_of_pieces (pieces_injective hempty' h.empty ?_) h.empty
  rw [hsplit, hsplit', flatMap_concat, flatMap_concat]
  exact hsame

/-- The hashed bytes tell a manifest only if there is no text in it, and none to be read from its
numbers. -/
theorem determined_iff (m : BackupManifest) : Determined m ↔ Textless m :=
  ⟨fun h ↦ ⟨h.empty, h.illegible⟩, Textless.determined⟩

/-- A byte of the version that was part of the id. -/
theorem id_shifted : ¬ Determined ⟨"bk-1", "", .full, "0.1.0", 12, [], 0⟩ := by
  intro h
  have hagree := h ⟨"bk-10", "", .full, ".1.0", 12, [], 0⟩ (by decide)
  exact absurd hagree.backupId (by decide)

end Aldivine.Backups.ContentHash
