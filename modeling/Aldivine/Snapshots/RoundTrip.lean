import Aldivine.Snapshots.Codec

namespace Aldivine.Snapshots.RoundTrip

open Foundation.Text Foundation.Wire Std Codec

def entryBytes (e : String × List UInt8) : List UInt8 :=
  toBE 2 (utf8 e.1).length ++ (utf8 e.1 ++ (toBE 4 e.2.length ++ e.2))

def Framed (e : String × List UInt8) : Prop :=
  (utf8 e.1).length ≤ maxKeyLen ∧ e.2.length ≤ maxValueLen

section Entry

variable {m : ExtTreeMap String (List UInt8)} {e : String × List UInt8} {n : ℕ}

theorem parses_u16 (h : n < 256 ^ 2) : Parses u16 (toBE 2 n) (.ofNat 16 n) :=
  (parses_readBE _ h).map _

theorem parses_u32 (h : n < 256 ^ 4) : Parses u32 (toBE 4 n) (.ofNat 32 n) :=
  (parses_readBE _ h).map _

theorem parses_u64 (h : n < 256 ^ 8) : Parses u64 (toBE 8 n) (.ofNat 64 n) :=
  (parses_readBE _ h).map _

theorem utf8_eq_nil {s : String} : utf8 s = [] ↔ s = "" := by
  rw [← utf8_empty]
  exact utf8_injective.eq_iff

theorem parses_readKey {k : String} (hlen : (utf8 k).length ≤ maxKeyLen) (hk : k ≠ "") :
    Parses (readKey (utf8 k).length) (utf8 k) k := by
  have hzero : (utf8 k).length ≠ 0 := by simpa [utf8_eq_nil] using hk
  have hfits : ¬((utf8 k).length > maxKeyLen ∨ (utf8 k).length = 0) := by omega
  simp only [readKey, if_neg hfits]
  have htake : Parses (take (utf8 k).length) (utf8 k) (utf8 k) := parses_takeBytes _ rfl
  intro rest
  rw [run_bind_ok (htake rest), ofUtf8_utf8]
  rfl

theorem misses_readKey {bytes : List UInt8} {k : String} : Misses (readKey 0) bytes k := by
  simp only [readKey, or_true, if_true]
  exact misses_throw _

theorem parses_readValue {v : List UInt8} (hlen : v.length ≤ maxValueLen) :
    Parses (readValue v.length) v v := by
  have hfits : ¬v.length > maxValueLen := by omega
  simp only [readValue, if_neg hfits]
  exact parses_takeBytes _ rfl

theorem readEntries_cons (hframed : Framed e) (hk : e.1 ≠ "") (hnew : e.1 ∉ m)
    {rest : List UInt8} :
    (readEntries (n + 1) m).run (entryBytes e ++ rest) =
      (readEntries n (m.insert e.1 e.2)).run rest := by
  obtain ⟨hklen, hvlen⟩ := hframed
  have hk16 : (BitVec.ofNat 16 (utf8 e.1).length).toNat = (utf8 e.1).length := by
    rw [BitVec.toNat_ofNat, Nat.mod_eq_of_lt]
    exact hklen.trans_lt (by decide)
  have hv32 : (BitVec.ofNat 32 e.2.length).toNat = e.2.length := by
    rw [BitVec.toNat_ofNat, Nat.mod_eq_of_lt]
    exact hvlen.trans_lt (by decide)
  have hcontains : m.contains e.1 = false := by
    rwa [Bool.eq_false_iff, ne_eq, ← ExtTreeMap.mem_iff_contains]
  simp only [entryBytes, List.append_assoc, readEntries]
  rw [run_bind_ok (parses_u16 (hklen.trans_lt (by decide)) _), hk16,
    run_bind_ok (parses_readKey hklen hk _),
    run_bind_ok (parses_u32 (hvlen.trans_lt (by decide)) _), hv32,
    run_bind_ok (parses_readValue hvlen _), hcontains]
  rfl

theorem misses_readEntries_empty {more : List UInt8} {m' : ExtTreeMap String (List UInt8)}
    (hk : e.1 = "") : Misses (readEntries (n + 1) m) (entryBytes e ++ more) m' := by
  have hlen : (utf8 e.1).length = 0 := by rw [hk, utf8_empty, List.length_nil]
  simp only [entryBytes, List.append_assoc, readEntries]
  rw [hlen]
  refine (parses_u16 (by decide)).bind_misses ?_
  rw [← List.append_assoc]
  exact misses_bind (fun _ ↦ misses_readKey)

end Entry

section Entries

variable {entries : List (String × List UInt8)} {m m' : ExtTreeMap String (List UInt8)}

def bodyBytes (entries : List (String × List UInt8)) : List UInt8 := entries.flatMap entryBytes

def insertAll (m : ExtTreeMap String (List UInt8)) (entries : List (String × List UInt8)) :
    ExtTreeMap String (List UInt8) :=
  entries.foldl (fun m e ↦ m.insert e.1 e.2) m

/-- The encoder writes the entries one after the other, or lets none through. -/
theorem encodeEntries_eq_ok {out : List UInt8} (h : encodeEntries entries = .ok out) :
    out = bodyBytes entries ∧ ∀ e ∈ entries, Framed e := by
  induction entries generalizing out with
  | nil =>
    cases h
    exact ⟨rfl, fun e he ↦ by cases he⟩
  | cons e entries ih =>
    simp only [encodeEntries] at h
    split at h
    · cases h
    split at h
    · cases h
    cases hrest : encodeEntries entries with
    | error err =>
      rw [hrest] at h
      cases h
    | ok rest =>
      rw [hrest] at h
      cases h
      obtain ⟨rfl, hframed⟩ := ih hrest
      refine ⟨by simp [bodyBytes, entryBytes], List.forall_mem_cons.mpr ⟨?_, hframed⟩⟩
      exact ⟨Nat.le_of_not_lt ‹_›, Nat.le_of_not_lt ‹_›⟩

/-- Entries with distinct keys are read up to the first empty key. -/
theorem reads_readEntries (hframed : ∀ e ∈ entries, Framed e)
    (hdistinct : entries.Pairwise (fun a b ↦ a.1 ≠ b.1)) (hnew : ∀ e ∈ entries, e.1 ∉ m) :
    Reads (∀ e ∈ entries, e.1 ≠ "") (readEntries entries.length m) (bodyBytes entries)
      (insertAll m entries) := by
  induction entries generalizing m with
  | nil => exact ⟨fun _ ↦ parses_pure m, fun h ↦ absurd (fun e he ↦ by cases he) h⟩
  | cons e entries ih =>
    by_cases hkey : e.1 = ""
    · refine ⟨fun h ↦ absurd hkey (h e List.mem_cons_self), fun _ ↦ ?_⟩
      exact misses_readEntries_empty hkey
    obtain ⟨hframed₁, hframed⟩ := List.forall_mem_cons.mp hframed
    obtain ⟨hne, hdistinct⟩ := List.pairwise_cons.mp hdistinct
    obtain ⟨hnew₁, hnew⟩ := List.forall_mem_cons.mp hnew
    have hrest : ∀ e' ∈ entries, e'.1 ∉ m.insert e.1 e.2 := by
      intro e' he'
      rw [ExtTreeMap.mem_insert, not_or]
      exact ⟨fun heq ↦ hne e' he' (Std.compare_eq_iff_eq.mp heq), hnew e' he'⟩
    refine ((ih hframed hdistinct hrest).shift
      (fun _ ↦ readEntries_cons hframed₁ hkey hnew₁)).congr ?_
    simp [hkey]

theorem getElem?_insertAll (hdistinct : entries.Pairwise (fun a b ↦ a.1 ≠ b.1))
    {k : String} {v : List UInt8} :
    (insertAll m entries)[k]? = some v ↔
      (k, v) ∈ entries ∨ ((∀ e ∈ entries, e.1 ≠ k) ∧ m[k]? = some v) := by
  induction entries generalizing m with
  | nil => simp [insertAll]
  | cons e entries ih =>
    obtain ⟨hne, hdistinct⟩ := List.pairwise_cons.mp hdistinct
    have hstep : insertAll m (e :: entries) = insertAll (m.insert e.1 e.2) entries := rfl
    rw [hstep, ih hdistinct, ExtTreeMap.getElem?_insert]
    simp only [Std.compare_eq_iff_eq]
    obtain ⟨k', v'⟩ := e
    by_cases hk : k' = k
    · subst hk
      have habsent : ∀ e' ∈ entries, e'.1 ≠ k' := fun e' he' ↦ (hne e' he').symm
      have hnot : (k', v) ∉ entries := fun hmem ↦ habsent _ hmem rfl
      rw [if_pos rfl]
      constructor
      · intro hcase
        rcases hcase with hmem | ⟨-, heq⟩
        · exact absurd hmem hnot
        · obtain rfl := Option.some.inj heq
          exact .inl List.mem_cons_self
      · intro hcase
        rcases hcase with hmem | ⟨hall, -⟩
        · rcases List.mem_cons.mp hmem with heq | hmem
          · cases heq
            exact .inr ⟨habsent, rfl⟩
          · exact absurd hmem hnot
        · exact absurd rfl (hall _ List.mem_cons_self)
    · simp [hk, Ne.symm hk]

theorem insertAll_toList (m : ExtTreeMap String (List UInt8)) : insertAll ∅ m.toList = m := by
  have hdistinct : m.toList.Pairwise (fun a b ↦ a.1 ≠ b.1) :=
    ExtTreeMap.distinct_keys_toList.imp (fun h heq ↦ h (Std.compare_eq_iff_eq.mpr heq))
  apply ExtTreeMap.ext_getElem?
  intro k
  apply Option.ext
  intro v
  rw [getElem?_insertAll hdistinct]
  simp

end Entries

/-- Every entry has a key, and there are no more of them than the decoder takes. -/
def Readable (s : Snapshot) : Prop := "" ∉ s.entries ∧ s.entries.size ≤ 1000000

def frame (s : Snapshot) : List UInt8 :=
  magic ++ (toBE 4 s.schemaVersion.toNat ++ (toBE 8 s.tick.toNat ++ (toBE 4 s.entries.size ++
    bodyBytes s.entries.toList)))

section Frame

variable {digest : List UInt8 → Digest} {s : Snapshot} {bytes : List UInt8}

theorem encode_eq_ok (h : s.encode digest = .ok bytes) :
    s.schemaVersion ∈ supportedSchemas ∧ s.entries.size < 2 ^ 32 ∧
      (∀ e ∈ s.entries.toList, Framed e) ∧ bytes = frame s ++ (digest (frame s)).1 := by
  simp only [Snapshot.encode] at h
  split at h
  · cases h
  split at h
  · cases h
  rename_i hschema hsize
  cases hentries : encodeEntries s.entries.toList with
  | error e =>
    rw [hentries] at h
    cases h
  | ok out =>
    obtain ⟨rfl, hframed⟩ := encodeEntries_eq_ok hentries
    rw [hentries] at h
    cases h
    refine ⟨not_not.mp hschema, by omega, hframed, ?_⟩
    simp only [frame, List.append_assoc]

theorem no_empty_key : (∀ e ∈ s.entries.toList, e.1 ≠ "") ↔ "" ∉ s.entries := by
  constructor
  · intro h hmem
    have hget := ExtTreeMap.getElem?_eq_some_getElem hmem
    exact h _ (ExtTreeMap.mem_toList_iff_getElem?_eq_some.mpr hget) rfl
  · rintro h ⟨k, v⟩ he rfl
    have hget := ExtTreeMap.mem_toList_iff_getElem?_eq_some.mp he
    exact h (ExtTreeMap.mem_iff_isSome_getElem?.mpr (by rw [hget]; rfl))

theorem reads_readSnapshot (hschema : s.schemaVersion ∈ supportedSchemas)
    (hsize : s.entries.size < 2 ^ 32) (hframed : ∀ e ∈ s.entries.toList, Framed e) :
    Reads (Readable s) readSnapshot (frame s) s := by
  have hcount : (BitVec.ofNat 32 s.entries.size).toNat = s.entries.size := by
    rw [BitVec.toNat_ofNat, Nat.mod_eq_of_lt hsize]
  have hdistinct : s.entries.toList.Pairwise (fun a b ↦ a.1 ≠ b.1) :=
    ExtTreeMap.distinct_keys_toList.imp (fun h heq ↦ h (Std.compare_eq_iff_eq.mpr heq))
  have hentries := reads_readEntries hframed hdistinct (m := ∅) (fun _ _ ↦ ExtTreeMap.not_mem_empty)
  rw [insertAll_toList, ExtTreeMap.length_toList, no_empty_key] at hentries
  have hmagic : Parses (take 8) magic magic := parses_takeBytes _ rfl
  have hword : Parses u32 (toBE 4 s.schemaVersion.toNat) (.ofNat 32 s.schemaVersion.toNat) :=
    parses_u32 s.schemaVersion.isLt
  have htick : Parses u64 (toBE 8 s.tick.toNat) (.ofNat 64 s.tick.toNat) :=
    parses_u64 s.tick.isLt
  rw [BitVec.ofNat_toNat, BitVec.setWidth_eq] at hword htick
  unfold readSnapshot frame
  refine hmagic.bind_reads ?_
  simp only [ne_eq, not_true_eq_false, if_false]
  refine hword.bind_reads ?_
  simp only [hschema, not_true_eq_false, if_false]
  refine htick.bind_reads ?_
  refine (parses_u32 hsize).bind_reads ?_
  rw [hcount]
  by_cases hmany : s.entries.size > 1000000
  · rw [if_pos hmany]
    refine ⟨fun h ↦ absurd h.2 (Nat.not_le.mpr hmany), fun _ ↦ misses_throw _⟩
  · rw [if_neg hmany]
    have hinj : Function.Injective (Snapshot.mk s.schemaVersion s.tick) :=
      fun _ _ h ↦ (Snapshot.mk.inj h).2.2
    refine (hentries.map hinj).congr ?_
    simp only [Readable, Nat.le_of_not_lt hmany, and_true]

theorem decode_of_run {s' : Snapshot} {sum : List UInt8} (hsum : (digest bytes).1 = sum)
    (hrun : readSnapshot.run (bytes ++ sum) = .ok (s', sum)) :
    decode digest (bytes ++ sum) = .ok s' := by
  have hlen : sum.length = 32 := hsum ▸ (digest bytes).2
  have hcut : (bytes ++ sum).length - 32 = bytes.length := by
    rw [List.length_append, hlen, Nat.add_sub_cancel]
  simp only [decode, hrun, hcut, List.take_left, List.drop_left, hsum, bind, Except.bind, hlen,
    ne_eq, not_true_eq_false, or_self, if_false]
  rfl

theorem run_of_decode {s' : Snapshot} (h : decode digest bytes = .ok s') :
    ∃ rest, readSnapshot.run bytes = .ok (s', rest) := by
  unfold decode at h
  cases hrun : readSnapshot.run bytes with
  | error e =>
    rw [hrun] at h
    cases h
  | ok x =>
    obtain ⟨s₁, rest⟩ := x
    simp only [hrun, bind, Except.bind] at h
    split at h
    · cases h
    split at h
    · cases h
    cases h
    exact ⟨rest, rfl⟩

end Frame

/-- What was encoded is decoded again exactly when every entry has a key and there are at most a
million of them. -/
theorem decode_encode_iff (digest : List UInt8 → Digest) (s : Snapshot) (bytes : List UInt8)
    (h : s.encode digest = .ok bytes) :
    decode digest bytes = .ok s ↔ "" ∉ s.entries ∧ s.entries.size ≤ 1000000 := by
  obtain ⟨hschema, hsize, hframed, rfl⟩ := encode_eq_ok h
  have hreads := reads_readSnapshot hschema hsize hframed
  constructor
  · intro hdecode
    by_contra hbad
    obtain ⟨rest, hrun⟩ := run_of_decode hdecode
    exact hreads.2 hbad _ rest hrun
  · intro hgood
    exact decode_of_run rfl (hreads.1 hgood _)

def zeroDigest (_ : List UInt8) : Digest := ⟨List.replicate 32 0, List.length_replicate⟩

def weather : Snapshot := ⟨1, 1234, ExtTreeMap.empty.insert "global:weather" [1, 2]⟩

theorem weather_restored :
    (∃ bytes, weather.encode zeroDigest = .ok bytes) ∧
    ∀ bytes, weather.encode zeroDigest = .ok bytes → decode zeroDigest bytes = .ok weather := by
  refine ⟨⟨_, rfl⟩, fun bytes h ↦ (decode_encode_iff zeroDigest weather bytes h).mpr ?_⟩
  refine ⟨?_, by decide⟩
  simp [weather]

def unnamed : Snapshot := ⟨1, 0, ExtTreeMap.empty.insert "" []⟩

theorem unnamed_not_restored :
    ∃ bytes, unnamed.encode zeroDigest = .ok bytes ∧
      decode zeroDigest bytes = .error (.keyTooLong 0) :=
  ⟨_, rfl, rfl⟩

end Aldivine.Snapshots.RoundTrip

namespace Aldivine.Snapshots.Framing

open Foundation.Text Foundation.Wire Std Codec RoundTrip

section Reading

theorem local_u16 : Local u16 := (local_readBE _ 2).map _

theorem local_u32 : Local u32 := (local_readBE _ 4).map _

theorem local_u64 : Local u64 := (local_readBE _ 8).map _

theorem local_readKey (klen : ℕ) : Local (readKey klen) := by
  unfold readKey
  split
  · exact local_throw_bind _
  · refine (local_takeBytes _ _).bind (fun bytes ↦ ?_)
    split
    · exact local_pure _
    · exact local_throw _

theorem local_readValue (vlen : ℕ) : Local (readValue vlen) := by
  unfold readValue
  split
  · exact local_throw_bind _
  · exact local_takeBytes _ _

theorem local_readEntries (count : ℕ) (entries : ExtTreeMap String (List UInt8)) :
    Local (readEntries count entries) := by
  induction count generalizing entries with
  | zero => exact local_pure _
  | succ count ih =>
    refine local_u16.bind (fun klen ↦ (local_readKey _).bind (fun key ↦ ?_))
    refine local_u32.bind (fun vlen ↦ (local_readValue _).bind (fun value ↦ ?_))
    split
    · exact local_throw_bind _
    · exact ih _

/-- The records say themselves where they end. -/
theorem local_readSnapshot : Local readSnapshot := by
  refine (local_takeBytes _ 8).bind (fun bytes ↦ ?_)
  split
  · exact local_throw_bind _
  refine local_u32.bind (fun schema ↦ ?_)
  split
  · exact local_throw_bind _
  refine local_u64.bind (fun tick ↦ local_u32.bind (fun count ↦ ?_))
  split
  · exact local_throw_bind _
  · exact (local_readEntries _ _).bind (fun entries ↦ local_pure _)

end Reading

section Decode

variable {digest : List UInt8 → Digest} {bytes more : List UInt8} {s : Snapshot}

def body (bytes : List UInt8) : List UInt8 := bytes.take (bytes.length - 32)

def trailer (bytes : List UInt8) : List UInt8 := bytes.drop (bytes.length - 32)

theorem body_append_trailer (bytes : List UInt8) : body bytes ++ trailer bytes = bytes :=
  List.take_append_drop _ _

/-- What is accepted leaves exactly the trailer unread, and the trailer is the hash of the rest. -/
theorem decode_eq_ok (h : decode digest bytes = .ok s) :
    (∃ rest, readSnapshot.run bytes = .ok (s, rest) ∧ rest.length = 32) ∧
      (digest (body bytes)).1 = trailer bytes := by
  unfold decode at h
  cases hrun : readSnapshot.run bytes with
  | error e =>
    rw [hrun] at h
    cases h
  | ok x =>
    obtain ⟨s₁, rest⟩ := x
    simp only [hrun, bind, Except.bind] at h
    split at h
    · cases h
    rename_i hlen
    split at h
    · cases h
    rename_i hsum
    cases h
    exact ⟨⟨rest, rfl, not_not.mp (not_or.mp hlen).2⟩, not_not.mp hsum⟩

/-- Of two byte strings that both are accepted, neither goes on where the other ends. -/
theorem eq_nil_of_decode_append {s' : Snapshot} (h : decode digest bytes = .ok s)
    (hmore : decode digest (bytes ++ more) = .ok s') : more = [] := by
  obtain ⟨⟨rest, hrun, hlen⟩, -⟩ := decode_eq_ok h
  obtain ⟨⟨rest', hrun', hlen'⟩, -⟩ := decode_eq_ok hmore
  have hsame := hrun'.symm.trans (local_readSnapshot bytes s rest hrun more)
  obtain ⟨-, rfl⟩ := Prod.mk.inj (Except.ok.inj hsame)
  rw [List.length_append, hlen] at hlen'
  exact List.length_eq_zero_iff.mp (Nat.add_eq_left.mp hlen')

theorem eq_of_decode_body {bytes' : List UInt8} {s' : Snapshot} (h : decode digest bytes = .ok s)
    (h' : decode digest bytes' = .ok s') (hbody : body bytes' = body bytes) : bytes' = bytes := by
  have hsum := (decode_eq_ok h).2
  have hsum' := (decode_eq_ok h').2
  rw [← body_append_trailer bytes', ← body_append_trailer bytes, ← hsum, ← hsum', hbody]

end Decode

/-- Next to a byte string that is accepted, everything shorter or longer and everything with another
trailer is refused. -/
theorem accepted_alone (digest : List UInt8 → Digest) (bytes : List UInt8) (s : Snapshot)
    (h : decode digest bytes = .ok s) :
    (∀ shorter, shorter <+: bytes → shorter ≠ bytes → ∃ e, decode digest shorter = .error e) ∧
    (∀ longer, bytes <+: longer → longer ≠ bytes → ∃ e, decode digest longer = .error e) ∧
    ∀ other, other.length = bytes.length →
      other.take (bytes.length - 32) = bytes.take (bytes.length - 32) → other ≠ bytes →
      ∃ e, decode digest other = .error e := by
  have hrefused (other : List UInt8) (hsame : ∀ s', decode digest other = .ok s' → other = bytes)
      (hne : other ≠ bytes) : ∃ e, decode digest other = .error e := by
    cases hdec : decode digest other with
    | error e => exact ⟨e, rfl⟩
    | ok s' => exact absurd (hsame s' hdec) hne
  refine ⟨fun shorter hpre ↦ hrefused shorter (fun s' hs' ↦ ?_),
    fun longer hpre ↦ hrefused longer (fun s' hs' ↦ ?_),
    fun other hlen hbody ↦ hrefused other (fun s' hs' ↦ ?_)⟩
  · obtain ⟨more, rfl⟩ := hpre
    rw [eq_nil_of_decode_append hs' h, List.append_nil]
  · obtain ⟨more, rfl⟩ := hpre
    rw [eq_nil_of_decode_append h hs', List.append_nil]
  · exact eq_of_decode_body h hs' (by rw [body, body, hlen, hbody])

/-- The frame of `weather`: schema 1, tick 1234 and one entry. -/
def weatherFrame : List UInt8 :=
  magic ++ [0, 0, 0, 1] ++ [0, 0, 0, 0, 0, 0, 4, 210] ++ [0, 0, 0, 1] ++ [0, 14] ++
    utf8 "global:weather" ++ [0, 0, 0, 2] ++ [1, 2] ++ List.replicate 32 0

theorem weatherFrame_alone :
    decode zeroDigest weatherFrame = .ok weather ∧
    (∃ e, decode zeroDigest (weatherFrame.take 60) = .error e) ∧
    (∃ e, decode zeroDigest (weatherFrame ++ [0]) = .error e) ∧
    ∃ e, decode zeroDigest (weatherFrame.set 77 1) = .error e := by
  have hok : decode zeroDigest weatherFrame = .ok weather := rfl
  obtain ⟨hshort, hlong, hother⟩ := accepted_alone zeroDigest weatherFrame _ hok
  exact ⟨hok, hshort _ (List.take_prefix _ _) (by decide),
    hlong _ (List.prefix_append _ _) (by decide), hother _ rfl rfl (by decide)⟩

end Aldivine.Snapshots.Framing
