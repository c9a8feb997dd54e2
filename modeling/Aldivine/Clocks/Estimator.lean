import Aldivine.Clocks.Samples
import Mathlib.Data.List.Induction
import Mathlib.Data.List.MinMax

namespace Aldivine.Clocks.Estimator

open Samples

structure ClockEstimator where
  samples : List SyncResult
  capacity : ℕ
deriving DecidableEq

section Keys

variable {α : Type} {key : α → ℤ} {l : List α} {x : α}

/-- `max_by_key` takes the last of several greatest elements. -/
def maxByKey (key : α → ℤ) (l : List α) : Option α :=
  @List.argmax α ℤ Int.instLinearOrder.toPreorder _ key l.reverse

/-- `min_by_key` takes the first of several least elements. -/
def minByKey (key : α → ℤ) (l : List α) : Option α :=
  @List.argmin α ℤ Int.instLinearOrder.toPreorder _ key l

theorem exists_maxByKey (h : l ≠ []) : ∃ x, maxByKey key l = some x := by
  rw [← Option.ne_none_iff_exists', maxByKey, Ne, List.argmax_eq_none, List.reverse_eq_nil_iff]
  exact h

theorem maxByKey_spec (h : maxByKey key l = some x) : x ∈ l ∧ ∀ y ∈ l, key y ≤ key x :=
  ⟨List.mem_reverse.mp (List.argmax_mem h),
    fun _ hy ↦ List.le_of_mem_argmax (List.mem_reverse.mpr hy) h⟩

theorem minByKey_eq_none : minByKey key l = none ↔ l = [] := List.argmin_eq_none

theorem minByKey_spec (h : minByKey key l = some x) : x ∈ l ∧ ∀ y ∈ l, key x ≤ key y :=
  ⟨List.argmin_mem h, fun _ hy ↦ List.le_of_mem_argmin hy h⟩

/-- Of things kept up to a capacity none was dropped as long as there is room. -/
theorem perm_of_length_lt {capacity : ℕ} {all kept dropped : List α}
    (hperm : all.Perm (kept ++ dropped)) (hlength : kept.length = min capacity all.length)
    (hroom : kept.length < capacity) : all.Perm kept := by
  have hcount := hperm.length_eq
  rw [List.length_append] at hcount
  obtain rfl : dropped = [] := List.length_eq_zero_iff.mp (by omega)
  rwa [List.append_nil] at hperm

end Keys

def worst (samples : List SyncResult) : Option ℕ :=
  (maxByKey (fun s ↦ s.1.rttMs) samples.zipIdx).map (·.2)

def evict (samples : List SyncResult) : List SyncResult :=
  match worst samples with
  | some i => samples.eraseIdx i
  | none => samples

namespace ClockEstimator

def new (capacity : ℕ) : ClockEstimator := ⟨[], max capacity 1⟩

def push (e : ClockEstimator) (r : SyncResult) : ClockEstimator :=
  { e with
    samples := (if e.capacity ≤ e.samples.length then evict e.samples else e.samples) ++ [r] }

def offsetMs (e : ClockEstimator) : Option ℤ :=
  (minByKey (·.rttMs) e.samples).map (·.offsetMs)

def fed (capacity : ℕ) (pushed : List SyncResult) : ClockEstimator :=
  pushed.foldl push (new capacity)

/-- There is room for the sample, or a retained one is no better. -/
def Admits (e : ClockEstimator) (r : SyncResult) : Prop :=
  e.samples.length < e.capacity ∨ ∃ s ∈ e.samples, r.rttMs ≤ s.rttMs

end ClockEstimator

/-- As many of the pushed samples as there is room for, and none of the others is better. -/
structure Best (capacity : ℕ) (pushed kept : List SyncResult) : Prop where
  length_eq : kept.length = min capacity pushed.length
  split : ∃ dropped, pushed.Perm (kept ++ dropped) ∧
    ∀ k ∈ kept, ∀ d ∈ dropped, k.rttMs ≤ d.rttMs

/-- The offset of one of the quickest of the pushed samples, if there are any. -/
def Quickest (pushed : List SyncResult) (offset : Option ℤ) : Prop :=
  (offset = none ∧ pushed = []) ∨
    ∃ s ∈ pushed, (∀ t ∈ pushed, s.rttMs ≤ t.rttMs) ∧ offset = some s.offsetMs

open ClockEstimator

variable {capacity : ℕ} {pushed kept samples : List SyncResult} {r : SyncResult}
  {e : ClockEstimator}

theorem evict_split (h : samples ≠ []) : ∃ before w after, samples = before ++ w :: after ∧
    evict samples = before ++ after ∧ ∀ s ∈ samples, s.rttMs ≤ w.rttMs := by
  obtain ⟨⟨w, i⟩, hmax⟩ : ∃ x, maxByKey (fun s ↦ s.1.rttMs) samples.zipIdx = some x := by
    refine exists_maxByKey ?_
    rwa [Ne, List.zipIdx_eq_nil_iff]
  obtain ⟨hmem, hgreatest⟩ := maxByKey_spec hmax
  have hat : samples[i]? = some w := List.mem_zipIdx_iff_getElem?.mp hmem
  obtain ⟨hi, hw⟩ := List.getElem?_eq_some_iff.mp hat
  refine ⟨samples.take i, w, samples.drop (i + 1), ?_, ?_, fun s hs ↦ ?_⟩
  · rw [← hw, ← List.drop_eq_getElem_cons hi, List.take_append_drop]
  · rw [evict, worst, hmax]
    exact List.eraseIdx_eq_take_drop_succ _ _
  · obtain ⟨j, hj⟩ := List.getElem?_of_mem hs
    exact hgreatest (s, j) (List.mem_zipIdx_iff_getElem?.mpr hj)

theorem capacity_fed (capacity : ℕ) (pushed : List SyncResult) :
    (fed capacity pushed).capacity = max capacity 1 := by
  induction pushed using List.reverseRecOn with
  | nil => rfl
  | append_singleton pushed r ih => rw [fed, List.foldl_concat]; exact ih

theorem push_of_room (h : e.samples.length < e.capacity) :
    (e.push r).samples = e.samples ++ [r] := by
  rw [ClockEstimator.push, if_neg (Nat.not_le.mpr h)]

theorem push_of_full (hpos : 0 < e.capacity) (h : e.capacity ≤ e.samples.length) :
    ∃ before w after, e.samples = before ++ w :: after ∧
      (e.push r).samples = before ++ after ++ [r] ∧ ∀ s ∈ e.samples, s.rttMs ≤ w.rttMs := by
  have hne : e.samples ≠ [] := List.ne_nil_of_length_pos (hpos.trans_le h)
  obtain ⟨before, w, after, hsplit, hevict, hworst⟩ := evict_split hne
  refine ⟨before, w, after, hsplit, ?_, hworst⟩
  rw [ClockEstimator.push, if_pos h, hevict]

theorem Best.perm_of_room (h : Best capacity pushed kept) (hroom : kept.length < capacity) :
    pushed.Perm kept := by
  obtain ⟨dropped, hperm, -⟩ := h.split
  exact perm_of_length_lt hperm h.length_eq hroom

theorem length_push (hpos : 0 < e.capacity) (hle : e.samples.length ≤ e.capacity) :
    (e.push r).samples.length = min e.capacity (e.samples.length + 1) := by
  by_cases hfull : e.capacity ≤ e.samples.length
  · obtain ⟨before, w, after, hsplit, hkept, -⟩ := push_of_full (r := r) hpos hfull
    have hold := congrArg List.length hsplit
    rw [hkept]
    simp only [List.length_append, List.length_cons, List.length_nil] at hold ⊢
    omega
  · rw [push_of_room (Nat.not_le.mp hfull), List.length_append, List.length_singleton]
    omega

theorem Best.split_of_full (h : Best e.capacity pushed e.samples) (hpos : 0 < e.capacity)
    (hfull : e.capacity ≤ e.samples.length) {s : SyncResult} (hs : s ∈ e.samples)
    (hrs : r.rttMs ≤ s.rttMs) : ∃ dropped, (pushed ++ [r]).Perm ((e.push r).samples ++ dropped) ∧
      ∀ k ∈ (e.push r).samples, ∀ d ∈ dropped, k.rttMs ≤ d.rttMs := by
  obtain ⟨before, w, after, hsplit, hkept, hworst⟩ := push_of_full (r := r) hpos hfull
  obtain ⟨dropped, hperm, hle⟩ := h.split
  have hw : w ∈ e.samples := by
    rw [hsplit]
    exact List.mem_append_right _ List.mem_cons_self
  have hnew : ∀ k ∈ (e.push r).samples, k.rttMs ≤ w.rttMs := by
    intro k hk
    rw [hkept, List.mem_append, List.mem_append, List.mem_singleton] at hk
    rcases hk with (hk | hk) | rfl
    · exact hworst k (hsplit ▸ List.mem_append_left _ hk)
    · exact hworst k (hsplit ▸ List.mem_append_right _ (List.mem_cons_of_mem _ hk))
    · exact hrs.trans (hworst s hs)
  refine ⟨w :: dropped, (hperm.append_right [r]).trans ?_, fun k hk d hd ↦ ?_⟩
  · rw [hkept, hsplit, List.perm_iff_count]
    intro a
    simp only [List.count_append, List.count_cons, List.count_nil]
    omega
  · rcases List.mem_cons.mp hd with rfl | hd
    · exact hnew k hk
    · exact (hnew k hk).trans (hle w hw d hd)

/-- The best samples stay the best ones if the new one is pushed with room left, or in the place of
one that is no better. -/
theorem Best.push (h : Best e.capacity pushed e.samples) (hpos : 0 < e.capacity)
    (hadmits : e.Admits r) : Best e.capacity (pushed ++ [r]) (e.push r).samples := by
  have hlength := h.length_eq
  refine ⟨?_, ?_⟩
  · rw [length_push hpos (by omega), List.length_append, List.length_singleton]
    omega
  · by_cases hfull : e.capacity ≤ e.samples.length
    · obtain ⟨s, hs, hrs⟩ := hadmits.resolve_left (Nat.not_lt.mpr hfull)
      exact h.split_of_full hpos hfull hs hrs
    · rw [Nat.not_le] at hfull
      refine ⟨[], ?_, fun _ _ _ hd ↦ by cases hd⟩
      rw [push_of_room hfull, List.append_nil]
      exact (h.perm_of_room hfull).append_right [r]

/-- A sample worse than all retained ones takes the place of one of the best. -/
theorem Best.admits (h : Best e.capacity pushed e.samples) (hpos : 0 < e.capacity)
    (hnext : Best e.capacity (pushed ++ [r]) (e.push r).samples) : e.Admits r := by
  by_contra hnot
  obtain ⟨hfull, hworse⟩ := not_or.mp hnot
  rw [Nat.not_lt] at hfull
  obtain ⟨before, w, after, hsplit, hkept, -⟩ := push_of_full (r := r) hpos hfull
  obtain ⟨dropped, hperm, -⟩ := h.split
  obtain ⟨dropped', hperm', hle'⟩ := hnext.split
  -- the samples better than the new one are counted
  let better (s : SyncResult) : Bool := s.rttMs < r.rttMs
  have hall : e.samples.countP better = e.samples.length := by
    rw [List.countP_eq_length]
    intro s hs
    by_contra hbetter
    exact hworse ⟨s, hs, by simpa [better] using hbetter⟩
  have hdropped : dropped'.countP better = 0 := by
    rw [List.countP_eq_zero]
    intro d hd
    have hr : r.rttMs ≤ d.rttMs := hle' r (by rw [hkept]; simp) d hd
    simpa [better] using hr
  have hbefore := hperm.countP_eq better
  have hafter := hperm'.countP_eq better
  have hself : better r = false := by simp [better]
  have hmost := List.countP_le_length (p := better) (l := before ++ after)
  have hlength := congrArg List.length hsplit
  rw [hkept] at hafter
  simp only [List.countP_append, List.countP_singleton, List.length_append, List.length_cons, hall,
    hself, hdropped, Bool.false_eq_true, if_false] at hbefore hafter hmost hlength
  omega

theorem quickest_of_best (h : Best capacity pushed e.samples) (hpos : 0 < capacity) :
    Quickest pushed e.offsetMs := by
  obtain ⟨dropped, hperm, hle⟩ := h.split
  have hlength := h.length_eq
  cases hmin : minByKey (·.rttMs) e.samples with
  | none =>
    rw [minByKey_eq_none.mp hmin, List.length_nil] at hlength
    have hnil : pushed.length = 0 := by omega
    refine .inl ⟨?_, List.length_eq_zero_iff.mp hnil⟩
    rw [ClockEstimator.offsetMs, hmin]
    rfl
  | some s =>
    obtain ⟨hs, hleast⟩ := minByKey_spec hmin
    refine .inr ⟨s, hperm.mem_iff.mpr (List.mem_append_left _ hs), fun t ht ↦ ?_, ?_⟩
    · rcases List.mem_append.mp (hperm.mem_iff.mp ht) with ht | ht
      · exact hleast t ht
      · exact hle s hs t ht
    · rw [ClockEstimator.offsetMs, hmin]
      rfl

theorem fed_concat (capacity : ℕ) (pushed : List SyncResult) (r : SyncResult) :
    fed capacity (pushed ++ [r]) = (fed capacity pushed).push r := List.foldl_concat _ _ _ _

/-- An estimator holds the best samples all along exactly when no sample comes to a full one that is
worse than all it has retained. -/
theorem best_iff (capacity : ℕ) (pushed : List SyncResult) :
    (∀ before, before <+: pushed → Best (max capacity 1) before (fed capacity before).samples ∧
      Quickest before (fed capacity before).offsetMs) ↔
    ∀ before r, before ++ [r] <+: pushed → (fed capacity before).Admits r := by
  have hpos : 0 < max capacity 1 := by omega
  have hcapacity := capacity_fed capacity
  constructor
  · intro h before r hpre
    have hbefore := (h before ((List.prefix_append _ _).trans hpre)).1
    have hnext := (h (before ++ [r]) hpre).1
    rw [fed_concat] at hnext
    rw [← hcapacity before] at hbefore hnext hpos
    exact hbefore.admits hpos hnext
  · intro h before hpre
    have hbest : Best (max capacity 1) before (fed capacity before).samples := by
      induction before using List.reverseRecOn with
      | nil => exact ⟨by simp [fed, ClockEstimator.new], [], .refl _, fun _ _ _ hd ↦ by cases hd⟩
      | append_singleton before r ih =>
        have hbefore := ih ((List.prefix_append _ _).trans hpre)
        rw [fed_concat]
        rw [← hcapacity before] at hbefore hpos ⊢
        exact hbefore.push hpos (h before r hpre)
    exact ⟨hbest, quickest_of_best hbest hpos⟩

/-- With room for one, a slow sample takes the place of a quick one. -/
theorem quick_lost : ¬ Quickest [⟨5, 10, 0⟩, ⟨80, 100, 0⟩]
    (fed 1 [⟨5, 10, 0⟩, ⟨80, 100, 0⟩]).offsetMs := by
  intro h
  have hoffset : (fed 1 [⟨5, 10, 0⟩, ⟨80, 100, 0⟩]).offsetMs = some 80 := by decide
  rw [hoffset] at h
  obtain ⟨hnone, -⟩ | ⟨s, hs, hmin, heq⟩ := h
  · cases hnone
  · rcases List.mem_pair.mp hs with rfl | rfl
    · cases heq
    · have hquick := hmin ⟨5, 10, 0⟩ List.mem_cons_self
      revert hquick
      decide

end Aldivine.Clocks.Estimator
