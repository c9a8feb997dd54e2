import Aldivine.Caches.Model
import Aldivine.Foundation.Execution
import Aldivine.Foundation.Turns

namespace Aldivine.Caches.Eviction

open Foundation Foundation.Execution Foundation.Table Model Model.ContentCache
open Streaming.Caches (CacheError validHash)

/-- The calls, and damage to a stored file: it is lost, or holds other bytes. -/
inductive Op
  | commit (staged : Option (List UInt8)) (expected : String)
  | get (hash : String)
  | repair
  | evictToFit (kept : List String)
  | damage (hash : String) (content : Option (List UInt8))

inductive Answer
  | committed (result : Except CacheError (String × String))
  | got (path : Option (String × String))
  | repaired (result : Except CacheError (List String))
  | evicted (hashes : List String)
  | done

def damaged (c : ContentCache) (hash : String) (content : Option (List UInt8)) : ContentCache :=
  if hash ∈ c.files then
    match content with
    | some bytes => { c with files := c.files.insert hash bytes }
    | none => { c with files := c.files.erase hash }
  else c

def act (sha256Hex : List UInt8 → String) (c : ContentCache) : Op → ContentCache × Answer
  | .commit staged expected =>
    ((c.commit sha256Hex staged expected).1, .committed (c.commit sha256Hex staged expected).2)
  | .get hash => ((c.get hash).1, .got (c.get hash).2)
  | .repair => ((c.repair sha256Hex).1, .repaired (c.repair sha256Hex).2)
  | .evictToFit kept => ((c.evictToFit kept).1, .evicted (c.evictToFit kept).2)
  | .damage hash content => (damaged c hash content, .done)

def usedBy : Op × Answer → Option String
  | (.commit _ expected, .committed (.ok _)) => some expected
  | (.get hash, .got (some _)) => some hash
  | _ => none

/-- The unprotected objects, the one that was not used for longest first. -/
def unprotected (c : ContentCache) (kept : List String) : List String :=
  c.lru.filter (fun h ↦ !kept.contains h)

/-- The evicted objects are the fewest of the least recently used ones that are enough, or all. -/
structure Evicts (c c' : ContentCache) (kept evicted : List String) : Prop where
  front : evicted <+: unprotected c kept
  spared : ∀ h ∈ evicted, h ∉ kept
  removed : c' = evicted.foldl forget c
  left : ∀ h, c'.sizes.lookup h = if h ∈ evicted then none else c.sizes.lookup h
  enough : c'.sizeBytes ≤ c.quotaBytes ∨ evicted = unprotected c kept
  fewest : ∀ fewer, fewer <+: unprotected c kept → fewer.length < evicted.length →
    c.quotaBytes < (fewer.foldl forget c).sizeBytes

/-- The list of recent use is one of the tracked objects, in the order of their last use. -/
structure Tracked (used : List String) (c : ContentCache) : Prop where
  order : c.lru = used.dedup.filter (fun h ↦ decide (h ∈ c.sizes))
  known : ∀ h, h ∈ c.sizes → h ∈ used
  stored : ∀ h, h ∈ c.files → validHash h = true → h ∈ c.sizes

variable {sha256Hex : List UInt8 → String} {c : ContentCache} {used kept hashes : List String}
  {hash : String}

theorem Tracked.nodup (h : Tracked used c) : c.lru.Nodup := by
  rw [h.order]
  exact used.nodup_dedup.filter _

theorem Tracked.mem_iff (h : Tracked used c) : hash ∈ c.lru ↔ hash ∈ c.sizes := by
  rw [h.order, List.mem_filter, List.mem_dedup, decide_eq_true_eq]
  exact and_iff_right_of_imp (h.known hash)

theorem Tracked.forget (h : Tracked used c) (hash : String) : Tracked used (c.forget hash) := by
  refine ⟨?_, fun x hx ↦ h.known x (AList.mem_erase.mp hx).2, fun x hx hvalid ↦ ?_⟩
  · rw [ContentCache.forget]
    dsimp only
    rw [h.order, List.filter_filter]
    refine List.filter_congr (fun x _ ↦ ?_)
    simp [AList.mem_erase]
  · obtain ⟨hne, hx⟩ := AList.mem_erase.mp hx
    exact AList.mem_erase.mpr ⟨hne, h.stored x hx hvalid⟩

theorem Tracked.foldl_forget (h : Tracked used c) (hashes : List String) :
    Tracked used (hashes.foldl ContentCache.forget c) := by
  induction hashes generalizing c with
  | nil => exact h
  | cons hash hashes ih => exact ih (h.forget hash)

section Evict

theorem unprotected_of_victim (hnodup : c.lru.Nodup) (h : c.victim kept = some hash) :
    unprotected c kept = hash :: unprotected (c.forget hash) kept := by
  obtain ⟨hp, before, after, hsplit, hbefore⟩ := List.find?_eq_some_iff_append.mp h
  have hfront : before.filter (fun h ↦ !kept.contains h) = [] :=
    List.filter_eq_nil_iff.mpr (fun x hx ↦ by simpa using hbefore x hx)
  have hdistinct : ∀ x ∈ after, x ≠ hash := by
    rw [hsplit, List.nodup_append] at hnodup
    obtain ⟨hnot, -⟩ := List.nodup_cons.mp hnodup.2.1
    exact fun x hx heq ↦ hnot (heq ▸ hx)
  have hall : unprotected c kept = hash :: after.filter (fun h ↦ !kept.contains h) := by
    rw [unprotected, hsplit, List.filter_append, hfront, List.nil_append, List.filter_cons,
      if_pos hp]
  have hrest : unprotected (c.forget hash) kept =
      (unprotected c kept).filter (fun h ↦ decide (h ≠ hash)) := by
    rw [unprotected, unprotected, ContentCache.forget, List.filter_filter, List.filter_filter]
    exact List.filter_congr (fun x _ ↦ Bool.and_comm _ _)
  rw [hrest, hall, List.filter_cons_of_neg (by simp)]
  refine congrArg (hash :: ·) (List.filter_eq_self.mpr (fun x hx ↦ ?_)).symm
  exact decide_eq_true (hdistinct x (List.mem_filter.mp hx).1)

theorem evictToFit_victim (hover : c.quotaBytes < c.sizeBytes) (h : c.victim kept = some hash) :
    c.evictToFit kept = (((c.forget hash).evictToFit kept).1,
      hash :: ((c.forget hash).evictToFit kept).2) := by
  rw [ContentCache.evictToFit, if_pos hover]
  split
  · rename_i found hfound
    obtain rfl := Option.some.inj (h.symm.trans hfound)
    rfl
  · rename_i hnone
    cases h.symm.trans hnone

theorem evictToFit_none (hover : c.quotaBytes < c.sizeBytes) (h : c.victim kept = none) :
    c.evictToFit kept = (c, []) := by
  rw [ContentCache.evictToFit, if_pos hover]
  split
  · rename_i hfound
    cases h.symm.trans hfound
  · rfl

theorem evictToFit_fits (h : ¬c.quotaBytes < c.sizeBytes) : c.evictToFit kept = (c, []) := by
  rw [ContentCache.evictToFit, if_neg h]

/-- What is evicted first is not evicted again: all else is the eviction from what is left. -/
theorem Evicts.cons {c' : ContentCache} {evicted : List String}
    (hover : c.quotaBytes < c.sizeBytes) (hnodup : c.lru.Nodup)
    (hvictim : c.victim kept = some hash)
    (h : Evicts (c.forget hash) c' kept evicted) : Evicts c c' kept (hash :: evicted) := by
  have horder := unprotected_of_victim hnodup hvictim
  refine ⟨?_, ?_, h.removed, fun x ↦ ?_, ?_, fun fewer hfewer hlength ↦ ?_⟩
  · rw [horder]
    exact List.cons_prefix_cons.mpr ⟨rfl, h.front⟩
  · have hfree : hash ∉ kept := by simpa using List.find?_some hvictim
    exact List.forall_mem_cons.mpr ⟨hfree, h.spared⟩
  · rw [h.left x, ContentCache.forget]
    by_cases hx : x = hash
    · subst hx
      simp
    · simp [hx, AList.lookup_erase_ne hx]
  · rw [horder]
    exact h.enough.imp_right (congrArg (hash :: ·))
  · cases fewer with
    | nil => exact hover
    | cons x fewer =>
      rw [horder] at hfewer
      obtain ⟨rfl, hfewer⟩ := List.cons_prefix_cons.mp hfewer
      exact h.fewest fewer hfewer (Nat.lt_of_succ_lt_succ hlength)

theorem Evicts.nil (h : c.sizeBytes ≤ c.quotaBytes ∨ [] = unprotected c kept) :
    Evicts c c kept [] where
  front := List.nil_prefix
  spared _ hmem := absurd hmem List.not_mem_nil
  removed := rfl
  left h := by rw [if_neg List.not_mem_nil]
  enough := h
  fewest _ _ hlength := absurd hlength (Nat.not_lt_zero _)

theorem evicts (hnodup : c.lru.Nodup) (kept : List String) :
    Evicts c (c.evictToFit kept).1 kept (c.evictToFit kept).2 := by
  induction c using ContentCache.evictToFit.induct kept with
  | case1 c hover hash hvictim ih =>
    rw [evictToFit_victim hover hvictim]
    exact (ih (hnodup.filter _)).cons hover hnodup hvictim
  | case2 c hover hnone =>
    rw [evictToFit_none hover hnone]
    have hall : unprotected c kept = [] :=
      List.filter_eq_nil_iff.mpr (by simpa using List.find?_eq_none.mp hnone)
    exact .nil (.inr hall.symm)
  | case3 c hfits =>
    rw [evictToFit_fits hfits]
    exact .nil (.inl (Nat.not_lt.mp hfits))

end Evict

section Steps

theorem Tracked.touch {c' : ContentCache} (h : Tracked used c)
    (hlru : c'.lru = Recency.touch c.lru hash)
    (hsizes : ∀ x, x ∈ c'.sizes ↔ x = hash ∨ x ∈ c.sizes)
    (hfiles : ∀ x, x ∈ c'.files → x = hash ∨ x ∈ c.files) : Tracked (used ++ [hash]) c' := by
  refine ⟨?_, fun x hx ↦ ?_, fun x hx hvalid ↦ ?_⟩
  · rw [hlru, h.order, Recency.dedup_concat]
    refine Recency.touch_filter (decide_eq_true ((hsizes hash).mpr (.inl rfl))) (fun x hx ↦ ?_)
    simp [hsizes, hx]
  · rw [List.mem_append, List.mem_singleton]
    exact ((hsizes x).mp hx).symm.imp_left (h.known x)
  · exact (hsizes x).mpr ((hfiles x hx).imp_right (fun hx ↦ h.stored x hx hvalid))

theorem Tracked.files {files : AList (fun _ : String ↦ List UInt8)} (h : Tracked used c)
    (hfiles : ∀ x, x ∈ files → x ∈ c.files) : Tracked used { c with files := files } :=
  ⟨h.order, h.known, fun x hx ↦ h.stored x (hfiles x hx)⟩

theorem Tracked.get (h : Tracked used c) (hash : String) :
    Tracked (used ++ (usedBy (.get hash, .got (c.get hash).2)).toList) (c.get hash).1 := by
  rw [ContentCache.get]
  split_ifs with hvalid hmem
  · simpa [usedBy] using h
  · have hsize := h.stored hash hmem (by simpa using hvalid)
    refine h.touch rfl (fun x ↦ ?_) (fun x hx ↦ .inr hx)
    exact (or_iff_right_of_imp (fun hx ↦ hx ▸ hsize)).symm
  · simpa [usedBy] using h

theorem Tracked.land {c' : ContentCache} {staged : Option (List UInt8)} {landed : List UInt8}
    (h : Tracked used c) (expected : String)
    (hfiles : ∀ x, x ∈ c'.files → x = expected ∨ x ∈ c.files) (hsizes : c'.sizes = c.sizes)
    (hlru : c'.lru = c.lru) :
    Tracked (used ++ (usedBy (.commit staged expected,
      .committed (c'.land sha256Hex expected landed).2)).toList)
      (c'.land sha256Hex expected landed).1 := by
  rw [ContentCache.land]
  split_ifs with hsha
  · rw [usedBy, Option.toList_none, List.append_nil]
    · refine ⟨hlru ▸ hsizes ▸ h.order, hsizes ▸ h.known, fun x hx hvalid ↦ ?_⟩
      obtain ⟨hne, hx⟩ := AList.mem_erase.mp hx
      exact hsizes ▸ h.stored x ((hfiles x hx).resolve_left hne) hvalid
    all_goals simp
  · refine h.touch ?_ (fun x ↦ ?_) hfiles
    · rw [← hlru]
      rfl
    · rw [← hsizes]
      exact AList.mem_insert _

theorem Tracked.commit (h : Tracked used c) (staged : Option (List UInt8)) (expected : String) :
    Tracked (used ++ (usedBy (.commit staged expected,
      .committed (c.commit sha256Hex staged expected).2)).toList)
      (c.commit sha256Hex staged expected).1 := by
  unfold ContentCache.commit
  split_ifs
  · simpa [usedBy] using h
  · cases staged with
    | none => simpa [usedBy] using h
    | some bytes =>
      dsimp only
      split_ifs
      · simpa [usedBy] using h
      · split
        · exact h.land expected (fun x hx ↦ .inr hx) rfl rfl
        · exact h.land expected (fun x hx ↦ (AList.mem_insert _).mp hx) rfl rfl

theorem Tracked.repair (h : Tracked used c) : Tracked used (c.repair sha256Hex).1 := by
  rw [ContentCache.repair]
  split
  · exact h
  · exact h.foldl_forget _

theorem Tracked.evictToFit (h : Tracked used c) (kept : List String) :
    Tracked used (c.evictToFit kept).1 := by
  rw [(evicts h.nodup kept).removed]
  exact h.foldl_forget _

theorem Tracked.damaged (h : Tracked used c) (hash : String) (content : Option (List UInt8)) :
    Tracked used (damaged c hash content) := by
  unfold Eviction.damaged
  split_ifs with hmem
  · cases content with
    | none => exact h.files (fun x hx ↦ (AList.mem_erase.mp hx).2)
    | some bytes =>
      exact h.files (fun x hx ↦ ((AList.mem_insert _).mp hx).elim (fun hx ↦ hx ▸ hmem) id)
  · exact h

theorem Tracked.act (sha256Hex : List UInt8 → String) (h : Tracked used c) (op : Op) :
    Tracked (used ++ (usedBy (op, (act sha256Hex c op).2)).toList) (act sha256Hex c op).1 := by
  cases op with
  | commit staged expected => exact h.commit staged expected
  | get hash => exact h.get hash
  | repair => simpa [usedBy, Eviction.act] using h.repair
  | evictToFit kept => simpa [usedBy, Eviction.act] using h.evictToFit kept
  | damage hash content => simpa [usedBy, Eviction.act] using h.damaged hash content

end Steps

section Run

variable (quotaBytes : ℕ) (files : AList (fun _ : String ↦ List UInt8)) (mtime : String → ℕ)

theorem nodup_openDir : (openDir quotaBytes files mtime).lru.Nodup := by
  have hkeys : (files.entries.map Sigma.fst).Nodup := files.nodupKeys
  have hfound := hkeys.sublist ((List.filter_sublist (p := fun f ↦ validHash f.1)).map Sigma.fst)
  exact ((List.mergeSort_perm _ _).map Sigma.fst).nodup_iff.mpr hfound

theorem mem_openDir : hash ∈ (openDir quotaBytes files mtime).lru ↔
    hash ∈ files ∧ validHash hash = true := by
  have hperm := (List.mergeSort_perm (files.entries.filter (fun f ↦ validHash f.1))
    (fun f g ↦ mtime f.1 ≤ mtime g.1)).map Sigma.fst
  rw [openDir, hperm.mem_iff, List.mem_map]
  constructor
  · intro h
    obtain ⟨f, hf, rfl⟩ := h
    obtain ⟨hentry, hvalid⟩ := List.mem_filter.mp hf
    exact ⟨List.mem_keys_of_mem hentry, hvalid⟩
  · intro h
    obtain ⟨hmem, hvalid⟩ := h
    obtain ⟨f, hf, rfl⟩ := List.mem_map.mp hmem
    exact ⟨f, List.mem_filter.mpr ⟨hf, hvalid⟩, rfl⟩

theorem mem_sizes_openDir : hash ∈ (openDir quotaBytes files mtime).sizes ↔
    hash ∈ (openDir quotaBytes files mtime).lru := by
  rw [openDir]
  dsimp only
  rw [mem_foldl_insert]
  exact or_iff_left (AList.notMem_empty hash)

theorem tracked_openDir :
    Tracked (openDir quotaBytes files mtime).lru (openDir quotaBytes files mtime) where
  order := by
    rw [(nodup_openDir quotaBytes files mtime).dedup]
    refine (List.filter_eq_self.mpr (fun x hx ↦ ?_)).symm
    exact decide_eq_true ((mem_sizes_openDir quotaBytes files mtime).mpr hx)
  known h := (mem_sizes_openDir quotaBytes files mtime).mp
  stored h hmem hvalid := (mem_sizes_openDir quotaBytes files mtime).mpr
    ((mem_openDir quotaBytes files mtime).mpr ⟨hmem, hvalid⟩)

/-- The objects that a run used: first the files that were found, in the order of their times. -/
def uses (sha256Hex : List UInt8 → String) (ops : List Op) : List String :=
  (openDir quotaBytes files mtime).lru ++
    (answers (act sha256Hex) (openDir quotaBytes files mtime) ops).filterMap usedBy

theorem tracked_run (ops : List Op) :
    Tracked (uses quotaBytes files mtime sha256Hex ops)
      (run (act sha256Hex) (openDir quotaBytes files mtime) ops) := by
  induction ops using List.reverseRecOn with
  | nil =>
    rw [uses, run_nil]
    exact (List.append_nil _).symm ▸ tracked_openDir quotaBytes files mtime
  | append_singleton ops op ih =>
    rw [run_concat, uses, answers_concat, List.filterMap_append, ← List.append_assoc, ← uses]
    have hstep := ih.act sha256Hex op
    cases hused : usedBy (op, (act sha256Hex (run (act sha256Hex)
      (openDir quotaBytes files mtime) ops) op).2) with
    | none => simpa [hused] using hstep
    | some hash => simpa [hused] using hstep

/-- After any run the list of recent use holds each tracked object once, in the order of its last
use, and what is evicted are the fewest of the least recently used unprotected objects that are
enough. -/
theorem cache_run (sha256Hex : List UInt8 → String) (ops : List Op) :
    let c := run (act sha256Hex) (openDir quotaBytes files mtime) ops
    (∀ h, c.lru.count h = if h ∈ c.sizes then 1 else 0) ∧
      c.lru = (uses quotaBytes files mtime sha256Hex ops).dedup.filter
        (fun h ↦ decide (h ∈ c.sizes)) ∧
      ∀ kept, Evicts c (c.evictToFit kept).1 kept (c.evictToFit kept).2 := by
  intro c
  have htracked : Tracked (uses quotaBytes files mtime sha256Hex ops) c :=
    tracked_run quotaBytes files mtime ops
  refine ⟨fun h ↦ ?_, htracked.order, evicts htracked.nodup⟩
  rw [List.Nodup.count htracked.nodup]
  simp only [htracked.mem_iff]

end Run

end Aldivine.Caches.Eviction
