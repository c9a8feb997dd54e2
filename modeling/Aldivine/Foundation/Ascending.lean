import Mathlib.Data.Finset.Card
import Mathlib.Data.List.Pairwise
import Mathlib.Data.Set.Insert
import Mathlib.Order.Defs.LinearOrder

namespace Aldivine.Foundation.Ascending

variable {κ ν : Type} [LinearOrder κ]

/-- Insertion into entries that ascend by key: an entry with the key is replaced. -/
def insert (k : κ) (v : ν) : List (κ × ν) → List (κ × ν)
  | [] => [(k, v)]
  | e :: rest =>
    if k < e.1 then (k, v) :: e :: rest
    else if e.1 < k then e :: insert k v rest
    else (k, v) :: rest

/-- The table that results from inserting the entries one after the other. -/
def ofEntries (entries : List (κ × ν)) : List (κ × ν) :=
  entries.foldl (fun m e ↦ insert e.1 e.2 m) []

def Ascends (m : List (κ × ν)) : Prop := m.Pairwise (fun a b ↦ a.1 < b.1)

variable {m entries entries' : List (κ × ν)} {k : κ} {v : ν}

theorem mem_insert_iff (h : Ascends m) {e : κ × ν} :
    e ∈ insert k v m ↔ e = (k, v) ∨ e ∈ m ∧ e.1 ≠ k := by
  induction m with
  | nil => simp [insert]
  | cons a m ih =>
    obtain ⟨ha, hm⟩ := List.pairwise_cons.mp h
    have hmore {b : κ × ν} (hb : b ∈ m) : a.1 < b.1 := ha b hb
    unfold insert
    split_ifs with hlt hgt
    · rw [List.mem_cons, List.mem_cons]
      refine or_congr_right ((and_iff_left_of_imp fun he ↦ ?_).symm)
      rcases he with rfl | he
      · exact hlt.ne'
      · exact (hlt.trans (hmore he)).ne'
    · rw [List.mem_cons, List.mem_cons, ih hm]
      constructor
      · rintro (rfl | rfl | ⟨he, hne⟩)
        · exact .inr ⟨.inl rfl, hgt.ne⟩
        · exact .inl rfl
        · exact .inr ⟨.inr he, hne⟩
      · rintro (rfl | ⟨rfl | he, hne⟩)
        · exact .inr (.inl rfl)
        · exact .inl rfl
        · exact .inr (.inr ⟨he, hne⟩)
    · have hk : a.1 = k := le_antisymm (le_of_not_gt hlt) (le_of_not_gt hgt)
      rw [List.mem_cons, List.mem_cons]
      refine or_congr_right ⟨fun he ↦ ⟨.inr he, fun hek ↦ ?_⟩, fun ⟨he, hne⟩ ↦ ?_⟩
      · exact (hmore he).ne (hk.trans hek.symm)
      · exact he.resolve_left (fun hea ↦ hne (hea ▸ hk))

theorem ascends_insert (h : Ascends m) : Ascends (insert k v m) := by
  induction m with
  | nil => exact List.pairwise_singleton _ _
  | cons a m ih =>
    obtain ⟨ha, hm⟩ := List.pairwise_cons.mp h
    unfold insert
    split_ifs with hlt hgt
    · refine List.pairwise_cons.mpr ⟨fun e he ↦ ?_, h⟩
      rcases List.mem_cons.mp he with rfl | he
      · exact hlt
      · exact hlt.trans (ha e he)
    · refine List.pairwise_cons.mpr ⟨fun e he ↦ ?_, ih hm⟩
      rcases (mem_insert_iff hm).mp he with rfl | ⟨he, -⟩
      · exact hgt
      · exact ha e he
    · have hk : a.1 = k := le_antisymm (le_of_not_gt hlt) (le_of_not_gt hgt)
      exact List.pairwise_cons.mpr ⟨fun e he ↦ hk ▸ ha e he, hm⟩

theorem insert_last (h : ∀ e ∈ m, e.1 < k) : insert k v m = m ++ [(k, v)] := by
  induction m with
  | nil => rfl
  | cons a m ih =>
    obtain ⟨ha, hm⟩ := List.forall_mem_cons.mp h
    rw [insert, if_neg ha.asymm, if_pos ha, ih hm, List.cons_append]

theorem length_insert_le (k : κ) (v : ν) (m : List (κ × ν)) :
    (insert k v m).length ≤ m.length + 1 := by
  induction m with
  | nil => exact le_rfl
  | cons a m ih =>
    unfold insert
    split_ifs <;> simp only [List.length_cons] at ih ⊢ <;> omega

theorem length_le_insert (k : κ) (v : ν) (m : List (κ × ν)) : m.length ≤ (insert k v m).length := by
  induction m with
  | nil => exact Nat.zero_le _
  | cons a m ih =>
    unfold insert
    split_ifs <;> simp only [List.length_cons] at ih ⊢ <;> omega

section Append

variable {a b : List (κ × ν)}

theorem insert_first (h : ∀ e ∈ m, k < e.1) : insert k v m = (k, v) :: m := by
  cases m with
  | nil => rfl
  | cons a m => rw [insert, if_pos (h a List.mem_cons_self)]

theorem insert_append_right (h : ∀ e ∈ a, e.1 < k) : insert k v (a ++ b) = a ++ insert k v b := by
  induction a with
  | nil => rfl
  | cons e a ih =>
    obtain ⟨he, ha⟩ := List.forall_mem_cons.mp h
    rw [List.cons_append, insert, if_neg he.asymm, if_pos he, ih ha, List.cons_append]

theorem insert_append_left (h : ∃ e ∈ a, k ≤ e.1) : insert k v (a ++ b) = insert k v a ++ b := by
  induction a with
  | nil =>
    obtain ⟨e, he, -⟩ := h
    cases he
  | cons e a ih =>
    rw [List.cons_append, insert, insert]
    split_ifs with hlt hgt
    · rfl
    · obtain ⟨d, hd, hk⟩ := h
      rcases List.mem_cons.mp hd with rfl | hd
      · exact absurd hgt (not_lt.mpr hk)
      · rw [ih ⟨d, hd, hk⟩, List.cons_append]
    · rfl

end Append

theorem ofEntries_concat (entries : List (κ × ν)) (e : κ × ν) :
    ofEntries (entries ++ [e]) = insert e.1 e.2 (ofEntries entries) := List.foldl_concat _ _ _ _

theorem ascends_ofEntries (entries : List (κ × ν)) : Ascends (ofEntries entries) := by
  induction entries using List.reverseRecOn with
  | nil => exact List.Pairwise.nil
  | append_singleton entries e ih =>
    rw [ofEntries_concat]
    exact ascends_insert ih

theorem length_ofEntries_le (entries : List (κ × ν)) :
    (ofEntries entries).length ≤ entries.length := by
  induction entries using List.reverseRecOn with
  | nil => exact le_rfl
  | append_singleton entries e ih =>
    rw [ofEntries_concat, List.length_append]
    exact (length_insert_le _ _ _).trans (Nat.succ_le_succ ih)

theorem ofEntries_eq_self (h : Ascends entries) : ofEntries entries = entries := by
  induction entries using List.reverseRecOn with
  | nil => rfl
  | append_singleton entries e ih =>
    obtain ⟨hentries, -, hlast⟩ := List.pairwise_append.mp h
    rw [ofEntries_concat, ih hentries]
    exact insert_last (fun a ha ↦ hlast a ha e (List.mem_singleton_self e))

theorem mem_keys_ofEntries (entries : List (κ × ν)) :
    k ∈ (ofEntries entries).map Prod.fst ↔ k ∈ entries.map Prod.fst := by
  induction entries using List.reverseRecOn with
  | nil => rfl
  | append_singleton entries e ih =>
    rw [ofEntries_concat, List.map_append, List.mem_append, ← ih, List.mem_map, List.mem_map]
    simp only [mem_insert_iff (ascends_ofEntries entries), List.map_cons, List.map_nil,
      List.mem_singleton]
    constructor
    · rintro ⟨a, rfl | ⟨ha, -⟩, rfl⟩
      · exact .inr rfl
      · exact .inl ⟨a, ha, rfl⟩
    · rintro (⟨a, ha, rfl⟩ | rfl)
      · by_cases hae : a.1 = e.1
        · exact ⟨e, .inl rfl, hae.symm⟩
        · exact ⟨a, .inr ⟨ha, hae⟩, rfl⟩
      · exact ⟨e, .inl rfl, rfl⟩

theorem mem_ofEntries (h : (entries.map Prod.fst).Nodup) {e : κ × ν} :
    e ∈ ofEntries entries ↔ e ∈ entries := by
  induction entries using List.reverseRecOn with
  | nil => rfl
  | append_singleton entries a ih =>
    rw [List.map_append, List.nodup_append] at h
    obtain ⟨hentries, -, hdistinct⟩ := h
    rw [ofEntries_concat, mem_insert_iff (ascends_ofEntries entries), ih hentries, List.mem_append,
      List.mem_singleton, or_comm]
    refine or_congr_left (and_iff_left_of_imp fun he ↦ ?_)
    exact hdistinct _ (List.mem_map_of_mem he) _ (List.mem_singleton_self _)

theorem nodup_keys (h : Ascends m) : (m.map Prod.fst).Nodup :=
  (List.pairwise_map.mpr h).imp ne_of_lt

theorem card_keys (entries : List (κ × ν)) :
    (entries.map Prod.fst).toFinset.card = (ofEntries entries).length := by
  have hkeys : (entries.map Prod.fst).toFinset = ((ofEntries entries).map Prod.fst).toFinset := by
    ext k
    rw [List.mem_toFinset, List.mem_toFinset, mem_keys_ofEntries]
  rw [hkeys, List.toFinset_card_of_nodup (nodup_keys (ascends_ofEntries entries)), List.length_map]

theorem card_keys_filter (p : κ → Prop) [DecidablePred p] (entries : List (κ × ν)) :
    ((entries.map Prod.fst).toFinset.filter p).card =
      ((ofEntries entries).filter (fun e ↦ decide (p e.1))).length := by
  have hkeys : (entries.map Prod.fst).toFinset.filter p =
      (((ofEntries entries).filter (fun e ↦ decide (p e.1))).map Prod.fst).toFinset := by
    ext k
    rw [Finset.mem_filter, List.mem_toFinset, List.mem_toFinset, ← mem_keys_ofEntries, List.mem_map,
      List.mem_map]
    constructor
    · intro h
      obtain ⟨⟨e, he, rfl⟩, hp⟩ := h
      exact ⟨e, List.mem_filter.mpr ⟨he, decide_eq_true hp⟩, rfl⟩
    · intro h
      obtain ⟨e, he, rfl⟩ := h
      obtain ⟨he, hp⟩ := List.mem_filter.mp he
      exact ⟨⟨e, he, rfl⟩, of_decide_eq_true hp⟩
  rw [hkeys, List.toFinset_card_of_nodup, List.length_map]
  exact nodup_keys ((ascends_ofEntries entries).sublist List.filter_sublist)

theorem length_ofEntries_eq_iff :
    (ofEntries entries).length = entries.length ↔ (entries.map Prod.fst).Nodup := by
  rw [← card_keys, ← List.length_map Prod.fst]
  exact Multiset.toFinset_card_eq_card_iff_nodup

/-- Two lists of entries of one length that make the same table have the same entries, if the keys of
one of them are distinct. -/
theorem mem_of_ofEntries_eq (h : (entries.map Prod.fst).Nodup)
    (heq : ofEntries entries' = ofEntries entries) (hlength : entries'.length = entries.length)
    {e : κ × ν} (he : e ∈ entries') : e ∈ entries := by
  have hcount := length_ofEntries_eq_iff.mpr h
  have hdistinct := length_ofEntries_eq_iff.mp (by rw [heq, hcount, hlength])
  rw [← mem_ofEntries hdistinct, heq, mem_ofEntries h] at he
  exact he

def lastWrite (entries : List (κ × ν)) (k : κ) : Option ν :=
  (entries.reverse.find? (fun e ↦ decide (e.1 = k))).map Prod.snd

theorem lastWrite_concat (entries : List (κ × ν)) (e : κ × ν) (k : κ) :
    lastWrite (entries ++ [e]) k = if e.1 = k then some e.2 else lastWrite entries k := by
  rw [lastWrite, List.reverse_append, List.reverse_singleton, List.singleton_append,
    List.find?_cons]
  by_cases h : e.1 = k
  · simp [h]
  · simp [h, lastWrite]

theorem mem_ofEntries_iff (entries : List (κ × ν)) {e : κ × ν} :
    e ∈ ofEntries entries ↔ lastWrite entries e.1 = some e.2 := by
  induction entries using List.reverseRecOn with
  | nil => exact iff_of_false List.not_mem_nil (by simp [lastWrite])
  | append_singleton entries a ih =>
    rw [ofEntries_concat, mem_insert_iff (ascends_ofEntries entries), lastWrite_concat, ih]
    split_ifs with h
    · constructor
      · intro he
        rcases he with rfl | ⟨-, hne⟩
        · rfl
        · exact absurd h.symm hne
      · intro he
        exact .inl (Prod.ext h.symm (Option.some.inj he).symm)
    · constructor
      · intro he
        rcases he with rfl | ⟨he, -⟩
        · exact absurd rfl h
        · exact he
      · exact fun he ↦ .inr ⟨he, fun heq ↦ h heq.symm⟩

section Newest

def newest (c : ℕ) (m : List (κ × ν)) : List (κ × ν) := m.drop (m.length - c)

omit [LinearOrder κ] in
theorem newest_of_le {c : ℕ} (h : m.length ≤ c) : newest c m = m := by
  rw [newest, Nat.sub_eq_zero_of_le h, List.drop_zero]

omit [LinearOrder κ] in
theorem newest_append {c : ℕ} {a b : List (κ × ν)} (h : c ≤ b.length) :
    newest c (a ++ b) = newest c b := by
  rw [newest, newest, List.length_append, Nat.add_sub_assoc h, List.drop_append]
  simp

theorem ascends_newest (h : Ascends m) (c : ℕ) : Ascends (newest c m) :=
  h.sublist (List.drop_sublist _ _)

/-- Entries that are not among the newest do not come back: only these have to be kept for the next
insertion. -/
theorem newest_insert (h : Ascends m) (c : ℕ) (k : κ) (v : ν) :
    newest c (insert k v (newest c m)) = newest c (insert k v m) := by
  by_cases hle : m.length ≤ c
  · rw [newest_of_le hle]
  · have hsplit : m.take (m.length - c) ++ newest c m = m := List.take_append_drop _ _
    have hlength : (newest c m).length = c := by
      rw [newest, List.length_drop]
      omega
    have hbelow : ∀ d ∈ m.take (m.length - c), ∀ e ∈ newest c m, d.1 < e.1 := by
      have hm := h
      rw [Ascends, ← hsplit, List.pairwise_append] at hm
      exact hm.2.2
    by_cases hold : ∃ e ∈ m.take (m.length - c), k ≤ e.1
    · -- the new entry is older than all that are kept
      obtain ⟨d, hd, hk⟩ := hold
      have hfirst : insert k v (newest c m) = [(k, v)] ++ newest c m :=
        insert_first (fun e he ↦ hk.trans_lt (hbelow d hd e he))
      have hwhole : insert k v m = insert k v (m.take (m.length - c)) ++ newest c m := by
        conv_lhs => rw [← hsplit]
        exact insert_append_left ⟨d, hd, hk⟩
      rw [hfirst, hwhole, newest_append hlength.ge, newest_append hlength.ge]
    · have hwhole : insert k v m = m.take (m.length - c) ++ insert k v (newest c m) := by
        conv_lhs => rw [← hsplit]
        exact insert_append_right (fun e he ↦ lt_of_not_ge (fun hk ↦ hold ⟨e, he, hk⟩))
      rw [hwhole, newest_append (hlength.ge.trans (length_le_insert _ _ _))]

theorem mem_newest_iff (h : Ascends m) {c : ℕ} {e : κ × ν} :
    e ∈ newest c m ↔ e ∈ m ∧ (m.filter (fun d ↦ decide (e.1 < d.1))).length < c := by
  by_cases he : e ∈ m
  · obtain ⟨before, after, rfl⟩ := List.append_of_mem he
    obtain ⟨-, hafter, hbetween⟩ := List.pairwise_append.mp h
    obtain ⟨hnext, -⟩ := List.pairwise_cons.mp hafter
    have hcount : (before ++ e :: after).filter (fun d ↦ decide (e.1 < d.1)) = after := by
      rw [List.filter_append, List.filter_cons_of_neg (by simp),
        List.filter_eq_self.mpr (fun d hd ↦ decide_eq_true (hnext d hd)),
        List.filter_eq_nil_iff.mpr (fun d hd ↦ ?_), List.nil_append]
      simpa using (hbetween d hd e List.mem_cons_self).le
    rw [hcount, and_iff_right he]
    constructor
    · intro hin
      by_contra hge
      have hsplit : before ++ e :: after = (before ++ [e]) ++ after := by simp
      rw [hsplit, newest_append (Nat.not_lt.mp hge)] at hin
      exact lt_irrefl _ (hnext e (List.mem_of_mem_drop hin))
    · intro hlt
      have hle : (before ++ e :: after).length - c ≤ before.length := by
        rw [List.length_append, List.length_cons]
        omega
      rw [newest, List.drop_append_of_le_length hle]
      exact List.mem_append_right _ List.mem_cons_self
  · exact iff_of_false (fun hin ↦ he (List.mem_of_mem_drop hin)) (fun hin ↦ he hin.1)

end Newest

end Aldivine.Foundation.Ascending

namespace Aldivine.Foundation.Runs

def Inside (r : ℕ × ℕ) (i : ℕ) : Prop := r.1 ≤ i ∧ i < r.1 + r.2

/-- The runs, in ascending order and apart from each other, make up the set. -/
structure MaximalRuns (S : Set ℕ) (runs : List (ℕ × ℕ)) : Prop where
  nonempty : ∀ r ∈ runs, 0 < r.2
  apart : runs.Pairwise (fun a b ↦ a.1 + a.2 < b.1)
  covers : ∀ i, i ∈ S ↔ ∃ r ∈ runs, Inside r i

variable {S T : Set ℕ} {runs : List (ℕ × ℕ)} {r : ℕ × ℕ} {start len n : ℕ}

theorem maximalRuns_nil : MaximalRuns ∅ [] where
  nonempty := List.forall_mem_nil _
  apart := .nil
  covers i := iff_of_false (Set.notMem_empty i) (fun ⟨_, hr, _⟩ ↦ List.not_mem_nil hr)

theorem MaximalRuns.congr (h : MaximalRuns S runs) (hST : ∀ i, i ∈ T ↔ i ∈ S) :
    MaximalRuns T runs :=
  ⟨h.nonempty, h.apart, fun i ↦ (hST i).trans (h.covers i)⟩

theorem MaximalRuns.open (h : MaximalRuns S runs) (hgap : ∀ r ∈ runs, r.1 + r.2 < n) :
    MaximalRuns (insert n S) (runs ++ [(n, 1)]) := by
  refine ⟨?_, ?_, fun i ↦ ?_⟩
  · rw [List.forall_mem_append]
    exact ⟨h.nonempty, List.forall_mem_singleton.mpr Nat.one_pos⟩
  · refine List.pairwise_append.mpr ⟨h.apart, List.pairwise_singleton _ _, fun a ha b hb ↦ ?_⟩
    rw [List.mem_singleton.mp hb]
    exact hgap a ha
  · have hone : Inside (n, 1) i ↔ i = n := by
      simp only [Inside]
      omega
    simp only [Set.mem_insert_iff, h.covers, List.mem_append, List.mem_singleton, or_and_right,
      exists_or, exists_eq_left, hone, or_comm]

theorem MaximalRuns.extend (h : MaximalRuns S (runs ++ [(start, len)])) :
    MaximalRuns (insert (start + len) S) (runs ++ [(start, len + 1)]) := by
  obtain ⟨hnonempty, hapart, hcovers⟩ := h
  rw [List.forall_mem_append, List.forall_mem_singleton] at hnonempty
  rw [List.pairwise_append] at hapart
  refine ⟨?_, ?_, fun i ↦ ?_⟩
  · rw [List.forall_mem_append, List.forall_mem_singleton]
    exact ⟨hnonempty.1, Nat.succ_pos len⟩
  · refine List.pairwise_append.mpr ⟨hapart.1, List.pairwise_singleton _ _, fun a ha b hb ↦ ?_⟩
    rw [List.mem_singleton.mp hb]
    exact hapart.2.2 a ha (start, len) List.mem_cons_self
  · have hlast : Inside (start, len + 1) i ↔ i = start + len ∨ Inside (start, len) i := by
      simp only [Inside]
      omega
    simp only [Set.mem_insert_iff, hcovers, List.mem_append, List.mem_singleton, or_and_right,
      exists_or, exists_eq_left, hlast, or_left_comm]

theorem MaximalRuns.maximal (h : MaximalRuns S runs) (hr : r ∈ runs) :
    (∀ i, i + 1 = r.1 → i ∉ S) ∧ r.1 + r.2 ∉ S := by
  have hclose (a : ℕ × ℕ) (ha : a ∈ runs) : a = r ∨ a.1 + a.2 < r.1 ∨ r.1 + r.2 < a.1 := by
    let Apart (a b : ℕ × ℕ) : Prop := a = b ∨ a.1 + a.2 < b.1 ∨ b.1 + b.2 < a.1
    have hsymm : Std.Symm Apart := ⟨fun a b hab ↦ hab.imp Eq.symm Or.symm⟩
    have hpair : runs.Pairwise Apart := h.apart.imp (fun hab ↦ .inr (.inl hab))
    exact hpair.forall_of_forall (fun a _ ↦ .inl rfl) ha hr
  have hpos := h.nonempty r hr
  refine ⟨fun i hi hmem ↦ ?_, fun hmem ↦ ?_⟩
  · obtain ⟨a, ha, hle, hlt⟩ := (h.covers i).mp hmem
    rcases hclose a ha with rfl | hbefore | hbehind
    · omega
    · omega
    · omega
  · obtain ⟨a, ha, hle, hlt⟩ := (h.covers _).mp hmem
    rcases hclose a ha with rfl | hbefore | hbehind
    · omega
    · omega
    · omega

end Aldivine.Foundation.Runs
