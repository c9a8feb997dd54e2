import Mathlib.Algebra.Order.Floor.Div
import Aldivine.Downloads.Model
import Aldivine.Foundation.Machine

namespace Aldivine.Downloads.Chunks

open Foundation.Machine Model

variable {mode : Overflow} {plan : ChunkPlan} {fileLen chunkLen i : BitVec 64}

/-- `chunk_range`; without a result the arithmetic panics. -/
def chunkRange (mode : Overflow) (plan : ChunkPlan) (i : BitVec 64) :
    Option (Option (BitVec 64 × BitVec 64)) :=
  if i ≥ plan.chunkCount then some none
  else do
    let start ← mode.mul i plan.chunkLen
    let stop ← mode.add start plan.chunkLen
    return some (start, if stop ≤ plan.fileLen then stop else plan.fileLen)

def bounds (plan : ChunkPlan) (i : ℕ) : ℕ × ℕ :=
  (i * plan.chunkLen.toNat, min (i * plan.chunkLen.toNat + plan.chunkLen.toNat) plan.fileLen.toNat)

/-- The ranges are computed without overflow; they are not empty, each begins where the one before
ends, and every byte of the file is in exactly one. -/
structure Tiles (mode : Overflow) (plan : ChunkPlan) : Prop where
  computed : ∀ i < plan.chunkCount, ∃ start stop,
    chunkRange mode plan i = some (some (start, stop)) ∧
      (start.toNat, stop.toNat) = bounds plan i.toNat
  nonempty : ∀ i < plan.chunkCount, ∀ start stop,
    chunkRange mode plan i = some (some (start, stop)) → start < stop
  consecutive : ∀ i < plan.chunkCount, ∀ j < plan.chunkCount, j.toNat = i.toNat + 1 →
    ∀ left right, chunkRange mode plan i = some (some left) →
      chunkRange mode plan j = some (some right) → left.2 = right.1
  inside : ∀ i < plan.chunkCount, ∀ start stop,
    chunkRange mode plan i = some (some (start, stop)) → stop ≤ plan.fileLen
  covering : ∀ offset < plan.fileLen, ∃! i, i < plan.chunkCount ∧ ∃ start stop,
    chunkRange mode plan i = some (some (start, stop)) ∧ start ≤ offset ∧ offset < stop

structure Planned (plan : ChunkPlan) : Prop where
  fileLen : 0 < plan.fileLen.toNat
  chunkLen : 0 < plan.chunkLen.toNat
  lt_count : ∀ i, i < plan.chunkCount.toNat ↔ i * plan.chunkLen.toNat < plan.fileLen.toNat

theorem planned_of_new (h : ChunkPlan.new fileLen chunkLen = .ok plan) :
    Planned plan ∧ plan.fileLen = fileLen ∧ plan.chunkLen = chunkLen := by
  unfold ChunkPlan.new at h
  split at h
  · cases h
  rename_i hzero
  cases h
  rw [not_or] at hzero
  have hf : 0 < fileLen.toNat := Nat.pos_of_ne_zero fun h ↦ hzero.1 (BitVec.eq_of_toNat_eq h)
  have hc : 0 < chunkLen.toNat := Nat.pos_of_ne_zero fun h ↦ hzero.2 (BitVec.eq_of_toNat_eq h)
  have hlt : ∀ i, i < (fileLen.toNat + chunkLen.toNat - 1) / chunkLen.toNat ↔
      i * chunkLen.toNat < fileLen.toNat := by
    intro i
    rw [← Nat.ceilDiv_eq_add_pred_div, ← not_le, ← not_le, ceilDiv_le_iff_le_mul hc, Nat.mul_comm]
  have hcount : (fileLen.toNat + chunkLen.toNat - 1) / chunkLen.toNat ≤ fileLen.toNat :=
    not_lt.mp fun h ↦ absurd ((hlt _).mp h) (not_lt.mpr (Nat.le_mul_of_pos_right _ hc))
  refine ⟨⟨hf, hc, fun i ↦ ?_⟩, rfl, rfl⟩
  rw [BitVec.toNat_ofNat, Nat.mod_eq_of_lt (hcount.trans_lt fileLen.isLt)]
  exact hlt i

/-- The sum that is formed before it is cut to the length of the file fits. -/
def Fits (plan : ChunkPlan) (i : ℕ) : Prop :=
  i * plan.chunkLen.toNat + plan.chunkLen.toNat < 2 ^ 64

theorem chunkRange_of_fits (hi : i < plan.chunkCount) (hfits : Fits plan i.toNat) :
    ∃ start stop, chunkRange mode plan i = some (some (start, stop)) ∧
      (start.toNat, stop.toNat) = bounds plan i.toNat := by
  unfold Fits at hfits
  have hmul : mode.mul i plan.chunkLen =
      some (BitVec.ofNat 64 (i.toNat * plan.chunkLen.toNat)) := word_of_lt (by omega)
  have hstart : (BitVec.ofNat 64 (i.toNat * plan.chunkLen.toNat)).toNat =
      i.toNat * plan.chunkLen.toNat := by
    rw [BitVec.toNat_ofNat]
    exact Nat.mod_eq_of_lt (by omega)
  have hadd : mode.add (BitVec.ofNat 64 (i.toNat * plan.chunkLen.toNat)) plan.chunkLen =
      some (BitVec.ofNat 64 (i.toNat * plan.chunkLen.toNat + plan.chunkLen.toNat)) := by
    rw [Overflow.add, hstart]
    exact word_of_lt hfits
  have hstop : (BitVec.ofNat 64 (i.toNat * plan.chunkLen.toNat + plan.chunkLen.toNat)).toNat =
      i.toNat * plan.chunkLen.toNat + plan.chunkLen.toNat := by
    rw [BitVec.toNat_ofNat]
    exact Nat.mod_eq_of_lt hfits
  unfold chunkRange
  rw [if_neg (BitVec.not_le.mpr hi), hmul]
  dsimp only [Option.bind_eq_bind, Option.bind_some]
  rw [hadd]
  refine ⟨_, _, rfl, Prod.ext hstart ?_⟩
  dsimp only [bounds]
  split
  · rename_i hle
    rw [BitVec.le_def, hstop] at hle
    rw [hstop, min_eq_left hle]
  · rename_i hgt
    rw [BitVec.le_def, hstop, not_le] at hgt
    rw [min_eq_right hgt.le]

/-- A sum that comes round is below the start, so that the end is not that of the range. -/
theorem fits_of_chunkRange (hplan : Planned plan) {start stop : BitVec 64}
    (hi : i < plan.chunkCount) (h : chunkRange mode plan i = some (some (start, stop)))
    (hbounds : (start.toNat, stop.toNat) = bounds plan i.toNat) : Fits plan i.toNat := by
  unfold chunkRange at h
  rw [if_neg (BitVec.not_le.mpr hi)] at h
  obtain ⟨start', -, h⟩ := Option.bind_eq_some_iff.mp h
  obtain ⟨sum, hsum, h⟩ := Option.bind_eq_some_iff.mp h
  cases h
  obtain ⟨hstart, hstop⟩ := Prod.mk.inj hbounds
  have hinside := (hplan.lt_count i.toNat).mp hi
  have hwrapped := (word_toNat hsum).1
  rw [hstart] at hwrapped
  have hchunk := plan.chunkLen.isLt
  have hfile := plan.fileLen.isLt
  unfold Fits
  by_contra hover
  rw [not_lt] at hover
  have hround : sum.toNat = i.toNat * plan.chunkLen.toNat + plan.chunkLen.toNat - 2 ^ 64 := by
    rw [hwrapped, Nat.mod_eq_sub_mod hover, Nat.mod_eq_of_lt (by omega)]
  have hbelow : sum ≤ plan.fileLen := by
    rw [BitVec.le_def]
    omega
  rw [if_pos hbelow, min_eq_right (by omega)] at hstop
  omega

theorem fits_all_iff (hplan : Planned plan) : (∀ i < plan.chunkCount.toNat, Fits plan i) ↔
    ∃ k, plan.fileLen.toNat ≤ k * plan.chunkLen.toNat ∧ k * plan.chunkLen.toNat < 2 ^ 64 := by
  have hcount : 0 < plan.chunkCount.toNat := by
    rw [hplan.lt_count, Nat.zero_mul]
    exact hplan.fileLen
  constructor
  · intro h
    refine ⟨plan.chunkCount.toNat, not_lt.mp ?_, ?_⟩
    · rw [← hplan.lt_count]
      exact lt_irrefl _
    · have hlast := h _ (Nat.sub_one_lt hcount.ne')
      unfold Fits at hlast
      rwa [← Nat.succ_mul, Nat.succ_eq_add_one, Nat.sub_add_cancel hcount] at hlast
  · rintro ⟨k, hfile, hk⟩ i hi
    have hle : i + 1 ≤ k := by
      by_contra hgt
      have hless := (hplan.lt_count i).mp hi
      exact absurd (hfile.trans (Nat.mul_le_mul_right _ (by omega))) (not_le.mpr hless)
    unfold Fits
    rw [← Nat.succ_mul]
    exact (Nat.mul_le_mul_right _ hle).trans_lt hk

theorem tiles_of_fits (hplan : Planned plan) (hfits : ∀ i < plan.chunkCount.toNat, Fits plan i) :
    Tiles mode plan := by
  have hcomputed : ∀ i < plan.chunkCount, ∃ start stop,
      chunkRange mode plan i = some (some (start, stop)) ∧
        (start.toNat, stop.toNat) = bounds plan i.toNat :=
    fun i hi ↦ chunkRange_of_fits hi (hfits i.toNat hi)
  have hrange : ∀ i < plan.chunkCount, ∀ start stop,
      chunkRange mode plan i = some (some (start, stop)) →
        start.toNat = (bounds plan i.toNat).1 ∧ stop.toNat = (bounds plan i.toNat).2 := by
    intro i hi start stop h
    obtain ⟨start', stop', h', hbounds⟩ := hcomputed i hi
    cases h.symm.trans h'
    exact ⟨congrArg Prod.fst hbounds, congrArg Prod.snd hbounds⟩
  refine ⟨hcomputed, ?_, ?_, ?_, ?_⟩
  · intro i hi start stop h
    obtain ⟨hstart, hstop⟩ := hrange i hi start stop h
    have hinside := (hplan.lt_count i.toNat).mp hi
    have hpos := hplan.chunkLen
    rw [BitVec.lt_def, hstart, hstop]
    dsimp only [bounds]
    omega
  · rintro i hi j hj hnext ⟨_, stop⟩ ⟨start, _⟩ hleft hright
    obtain ⟨-, hstop⟩ := hrange i hi _ _ hleft
    obtain ⟨hstart, -⟩ := hrange j hj _ _ hright
    have hinside := (hplan.lt_count j.toNat).mp hj
    refine BitVec.eq_of_toNat_eq ?_
    dsimp only [bounds] at hstart hstop
    rw [hnext, Nat.succ_mul] at hstart hinside
    rw [hstart, hstop, min_eq_left hinside.le]
  · intro i hi start stop h
    rw [BitVec.le_def, (hrange i hi start stop h).2]
    exact min_le_right _ _
  · intro offset hoffset
    have hdiv := Nat.div_mul_le_self offset.toNat plan.chunkLen.toNat
    have hmod := Nat.lt_div_mul_add (a := offset.toNat) hplan.chunkLen
    have hlt : offset.toNat / plan.chunkLen.toNat < plan.chunkCount.toNat :=
      (hplan.lt_count _).mpr (hdiv.trans_lt hoffset)
    have hword : (BitVec.ofNat 64 (offset.toNat / plan.chunkLen.toNat)).toNat =
        offset.toNat / plan.chunkLen.toNat := by
      rw [BitVec.toNat_ofNat]
      exact Nat.mod_eq_of_lt (hlt.trans plan.chunkCount.isLt)
    have hi : BitVec.ofNat 64 (offset.toNat / plan.chunkLen.toNat) < plan.chunkCount := by
      rw [BitVec.lt_def, hword]
      exact hlt
    refine ⟨BitVec.ofNat 64 (offset.toNat / plan.chunkLen.toNat), ⟨hi, ?_⟩, ?_⟩
    · obtain ⟨start, stop, h, hbounds⟩ := hcomputed _ hi
      obtain ⟨hstart, hstop⟩ := Prod.mk.inj hbounds
      rw [hword] at hstart hstop
      refine ⟨start, stop, h, ?_, ?_⟩
      · rw [BitVec.le_def, hstart]
        exact hdiv
      · rw [BitVec.lt_def, hstop]
        exact lt_min hmod hoffset
    · rintro j ⟨hj, start, stop, h, hle, hltStop⟩
      obtain ⟨hstart, hstop⟩ := hrange j hj start stop h
      rw [BitVec.le_def, hstart] at hle
      rw [BitVec.lt_def, hstop] at hltStop
      have hupper := (lt_min_iff.mp hltStop).1
      refine BitVec.eq_of_toNat_eq ?_
      rw [hword, eq_comm]
      exact Nat.div_eq_of_lt_le hle (by rw [Nat.succ_mul]; exact hupper)

theorem tiles_iff (mode : Overflow) (h : ChunkPlan.new fileLen chunkLen = .ok plan) :
    Tiles mode plan ↔
      ∃ k, fileLen.toNat ≤ k * chunkLen.toNat ∧ k * chunkLen.toNat < 2 ^ 64 := by
  obtain ⟨hplan, rfl, rfl⟩ := planned_of_new h
  rw [← fits_all_iff hplan]
  constructor
  · intro htiles i hi
    have hword : (BitVec.ofNat 64 i).toNat = i := by
      rw [BitVec.toNat_ofNat]
      exact Nat.mod_eq_of_lt (hi.trans plan.chunkCount.isLt)
    have hlt : BitVec.ofNat 64 i < plan.chunkCount := by
      rw [BitVec.lt_def, hword]
      exact hi
    obtain ⟨start, stop, hrange, hbounds⟩ := htiles.computed _ hlt
    rw [← hword]
    exact fits_of_chunkRange hplan hlt hrange hbounds
  · exact tiles_of_fits hplan

theorem tiles_iff_small : Tiles .panics ⟨10, 4, 3⟩ ↔
    ∃ k, (10 : BitVec 64).toNat ≤ k * (4 : BitVec 64).toNat ∧
      k * (4 : BitVec 64).toNat < 2 ^ 64 :=
  tiles_iff .panics (by decide)

/-- The last chunk of the largest file ends beyond the words: `start + chunk_len` is 2^64. -/
theorem tiles_top : ∃ plan, ChunkPlan.new (BitVec.ofNat 64 (2 ^ 64 - 1)) (BitVec.ofNat 64 (2 ^ 63)) =
    .ok plan ∧ chunkRange .panics plan 1 = none ∧
      chunkRange .wraps plan 1 = some (some (BitVec.ofNat 64 (2 ^ 63), 0)) ∧
      ¬Tiles .panics plan ∧ ¬Tiles .wraps plan := by
  refine ⟨_, rfl, by decide, by decide, fun h ↦ ?_, fun h ↦ ?_⟩
  · obtain ⟨start, stop, hrange, -⟩ := h.computed 1 (by decide)
    cases hrange.symm.trans (show _ = none by decide)
  · exact absurd (h.nonempty 1 (by decide) (BitVec.ofNat 64 (2 ^ 63)) 0 (by decide)) (by decide)

end Aldivine.Downloads.Chunks
