import Aldivine.Foundation.Execution
import Mathlib.Algebra.Order.Group.Abs
import Mathlib.Algebra.Order.Group.Int
import Mathlib.Order.Bounds.Basic

namespace Aldivine.Network.Reliability

open Foundation.Execution

def window : BitVec 32 := 1024

structure ReliabilityState where
  highest : BitVec 32
  seen : Bool
  mask : BitVec 64
deriving DecidableEq

inductive ReliabilityError
  | duplicate
  | stale
deriving DecidableEq

namespace ReliabilityState

def new : ReliabilityState := ⟨0, false, 0⟩

def validate (r : ReliabilityState) (seq : BitVec 32) :
    ReliabilityState × Except ReliabilityError Unit :=
  if ¬r.seen then (⟨seq, true, 1⟩, .ok ())
  else if seq = r.highest then (r, .error .duplicate)
  else
    let forward := seq - r.highest
    let half := 1#32 <<< 31
    if forward < half then
      if forward < 64 then ({ r with mask := (r.mask <<< forward) ||| 1, highest := seq }, .ok ())
      else ({ r with mask := 1, highest := seq }, .ok ())
    else
      let back := r.highest - seq
      if back ≥ window then (r, .error .stale)
      else if back < 64 then
        let bit := 1#64 <<< back
        if r.mask &&& bit ≠ 0 then (r, .error .duplicate)
        else ({ r with mask := r.mask ||| bit }, .ok ())
      else (r, .ok ())

end ReliabilityState

open ReliabilityState

/-- A packet keeps its place in the unbounded stream; the wire carries it modulo `2 ^ 32`. -/
def offer (r : ReliabilityState) (packet : ℤ) : ReliabilityState × Except ReliabilityError Unit :=
  r.validate (BitVec.ofInt 32 packet)

def accepted (packets : List ℤ) : List ℤ :=
  ((answers offer .new packets).filter (·.2.isOk)).map (·.1)

def Accepts (before : List ℤ) (u : ℤ) : Prop := (offer (run offer .new before) u).2 = .ok ()

/-- `H` is the largest packet let through so far. -/
def Largest (before : List ℤ) (H : ℤ) : Prop := IsGreatest {u | u ∈ accepted before} H

/-- What is let through is never further than half the sequence space from the largest so far. -/
def StaysNear (packets : List ℤ) : Prop :=
  ∀ before u, before ++ [u] <+: packets → Accepts before u →
    ∀ H, Largest before H → |u - H| ≤ 2 ^ 31

/-- A packet that was let through is refused ever after. -/
def NoReplay (packets : List ℤ) : Prop :=
  ∀ before u, before ++ [u] <+: packets → u ∈ accepted before →
    ∃ e, (offer (run offer .new before) u).2 = .error e

/-- No packet that was let through comes back while it is in the part of the window that the mask
does not cover. -/
def AvoidsBlindSpot (packets : List ℤ) : Prop :=
  ∀ before u, before ++ [u] <+: packets → u ∈ accepted before →
    ∀ H, Largest before H → ¬(64 ≤ H - u ∧ H - u < 1024)

theorem accepted_concat (packets : List ℤ) (u : ℤ) :
    accepted (packets ++ [u]) = accepted packets ++
      if (offer (run offer .new packets) u).2.isOk then [u] else [] := by
  simp only [accepted, answers_concat, List.filter_append, List.map_append]
  congr 1
  split <;> simp_all

section Distance

variable {r : ReliabilityState} {H u : ℤ}

theorem distance_toNat (a b : ℤ) :
    (BitVec.ofInt 32 a - BitVec.ofInt 32 b).toNat = ((a - b) % 2 ^ 32).toNat := by
  simp only [BitVec.toNat_sub, BitVec.toNat_ofInt]
  omega

theorem ofInt_ne {a b : ℤ} (h : (a - b) % 2 ^ 32 ≠ 0) : BitVec.ofInt 32 a ≠ BitVec.ofInt 32 b := by
  intro he
  have hd := distance_toNat a b
  rw [he, BitVec.sub_self] at hd
  simp only [BitVec.toNat_ofNat] at hd
  omega

theorem getLsbD_bit (k i : ℕ) : (1#64 <<< k).getLsbD i = (decide (k < 64) && decide (k = i)) :=
  BitVec.getLsbD_twoPow k i

theorem and_bit_eq_zero (mask : BitVec 64) {k : ℕ} (hk : k < 64) :
    mask &&& 1#64 <<< k = 0 ↔ mask.getLsbD k = false := by
  have hand : mask &&& 1#64 <<< k = if mask.getLsbD k then 1#64 <<< k else 0 :=
    BitVec.and_twoPow mask k
  have hbit : 1#64 <<< k ≠ 0 := by
    intro h
    have hget := getLsbD_bit k k
    rw [h] at hget
    simp [hk] at hget
  rw [hand]
  cases mask.getLsbD k with
  | false => simp
  | true => simpa using hbit

variable (hseen : r.seen = true) (hH : r.highest = BitVec.ofInt 32 H)

include hH

theorem forward_iff :
    BitVec.ofInt 32 u - r.highest < 1#32 <<< 31 ↔ (u - H) % 2 ^ 32 < 2 ^ 31 := by
  rw [BitVec.lt_def, hH, distance_toNat]
  change ((u - H) % 2 ^ 32).toNat < 2 ^ 31 ↔ _
  omega

include hseen

theorem offer_highest : offer r H = (r, .error .duplicate) := by
  simp [offer, validate, hseen, hH]

theorem offer_ahead (hlo : 0 < u - H) (hhi : u - H < 2 ^ 31) :
    offer r u = (⟨BitVec.ofInt 32 u, true,
      if u - H < 64 then (r.mask <<< (u - H).toNat) ||| 1 else 1⟩, .ok ()) := by
  have hne : BitVec.ofInt 32 u ≠ r.highest := hH ▸ ofInt_ne (by omega)
  have hd : (BitVec.ofInt 32 u - r.highest).toNat = (u - H).toNat := by
    rw [hH, distance_toNat, Int.emod_eq_of_lt hlo.le (by omega)]
  have hforward : BitVec.ofInt 32 u - r.highest < 1#32 <<< 31 := (forward_iff hH).mpr (by omega)
  have hnear : BitVec.ofInt 32 u - r.highest < 64 ↔ u - H < 64 := by
    rw [BitVec.lt_def, hd]
    change (u - H).toNat < 64 ↔ _
    omega
  simp only [offer, validate, hseen, hne, hforward, hnear, not_true, if_true, if_false]
  split
  · rw [BitVec.shiftLeft_eq', hd]
  · rfl

theorem offer_behind (hlo : 0 < H - u) (hhi : H - u ≤ 2 ^ 31) :
    offer r u = if 1024 ≤ H - u then (r, .error .stale)
      else if H - u < 64 then
        if r.mask.getLsbD (H - u).toNat then (r, .error .duplicate)
        else ({ r with mask := r.mask ||| 1#64 <<< (H - u).toNat }, .ok ())
      else (r, .ok ()) := by
  have hne : BitVec.ofInt 32 u ≠ r.highest := hH ▸ ofInt_ne (by omega)
  have hforward : ¬BitVec.ofInt 32 u - r.highest < 1#32 <<< 31 := by
    rw [forward_iff hH]
    omega
  have hd : (r.highest - BitVec.ofInt 32 u).toNat = (H - u).toNat := by
    rw [hH, distance_toNat, Int.emod_eq_of_lt hlo.le (by omega)]
  have hstale : r.highest - BitVec.ofInt 32 u ≥ window ↔ 1024 ≤ H - u := by
    rw [ge_iff_le, BitVec.le_def, hd]
    change 1024 ≤ (H - u).toNat ↔ _
    omega
  have hnear : r.highest - BitVec.ofInt 32 u < 64 ↔ H - u < 64 := by
    rw [BitVec.lt_def, hd]
    change (H - u).toNat < 64 ↔ _
    omega
  simp only [offer, validate, hseen, hne, hforward, hstale, hnear, not_true, if_false]
  split
  · rfl
  split
  · have hbit := and_bit_eq_zero r.mask (k := (H - u).toNat) (by omega)
    rw [BitVec.shiftLeft_eq', hd]
    cases hmask : r.mask.getLsbD (H - u).toNat with
    | true =>
      rw [if_pos (fun h ↦ by simp [hbit.mp h] at hmask)]
      rfl
    | false =>
      rw [if_neg (not_not.mpr (hbit.mpr hmask))]
      rfl
  · rfl

theorem offer_opposite (h : u - H = 2 ^ 31) : offer r u = (r, .error .stale) := by
  have hne : BitVec.ofInt 32 u ≠ r.highest := hH ▸ ofInt_ne (by omega)
  have hforward : ¬BitVec.ofInt 32 u - r.highest < 1#32 <<< 31 := by
    rw [forward_iff hH]
    omega
  have hstale : r.highest - BitVec.ofInt 32 u ≥ window := by
    rw [ge_iff_le, BitVec.le_def, hH, distance_toNat]
    change 1024 ≤ ((H - u) % 2 ^ 32).toNat
    omega
  simp only [offer, validate, hseen, hne, hforward, hstale, not_true, if_true, if_false]

end Distance

theorem offer_error {r : ReliabilityState} {u : ℤ} {e : ReliabilityError}
    (h : (offer r u).2 = .error e) : (offer r u).1 = r := by
  simp only [offer, validate] at h ⊢
  split_ifs at h ⊢ <;> rfl

/-- The state records the largest packet and, below it, every packet the mask covers. -/
structure Tracks (r : ReliabilityState) (passed : List ℤ) (H : ℤ) : Prop where
  largest : IsGreatest {u | u ∈ passed} H
  seen : r.seen = true
  highest : r.highest = BitVec.ofInt 32 H
  covered : ∀ k : ℕ, k < 64 → H - k ∈ passed → r.mask.getLsbD k = true

section Step

variable {r : ReliabilityState} {passed : List ℤ} {H u : ℤ}

theorem Tracks.le (h : Tracks r passed H) (hu : u ∈ passed) : u ≤ H := h.largest.2 hu

theorem tracks_first (u : ℤ) : Tracks ⟨BitVec.ofInt 32 u, true, 1⟩ [u] u where
  largest := by simp
  seen := rfl
  highest := rfl
  covered k _ hk := by
    have hk0 : k = 0 := by
      have := List.mem_singleton.mp hk
      omega
    subst hk0
    simp

theorem Tracks.ahead (h : Tracks r passed H) (hlo : 0 < u - H) (hhi : u - H < 2 ^ 31) :
    Tracks (offer r u).1 (passed ++ [u]) u := by
  rw [offer_ahead h.seen h.highest hlo hhi]
  refine ⟨⟨by simp, ?_⟩, rfl, rfl, ?_⟩
  · intro x hx
    rcases List.mem_append.mp hx with hx | hx
    · have := h.le hx
      omega
    · exact (List.mem_singleton.mp hx).le
  · intro k hk hmem
    rcases List.mem_append.mp hmem with hmem | hmem
    · have hle := h.le hmem
      have hcov := h.covered (k - (u - H).toNat) (by omega)
        (by convert hmem using 1; omega)
      dsimp only
      rw [if_pos (by omega)]
      have hk' : ¬k < (u - H).toNat := by omega
      simp [hk, hk', hcov]
    · have hk0 : k = 0 := by
        have := List.mem_singleton.mp hmem
        omega
      subst hk0
      dsimp only
      split <;> simp

theorem Tracks.behind (h : Tracks r passed H) (hlo : 0 < H - u) (hhi : H - u ≤ 2 ^ 31)
    (hok : (offer r u).2 = .ok ()) : Tracks (offer r u).1 (passed ++ [u]) H := by
  have hlargest : IsGreatest {x | x ∈ passed ++ [u]} H := by
    refine ⟨List.mem_append_left _ h.largest.1, fun x hx ↦ ?_⟩
    rcases List.mem_append.mp hx with hx | hx
    · exact h.le hx
    · have := List.mem_singleton.mp hx
      omega
  have hsplit (k : ℕ) (hmem : H - k ∈ passed ++ [u]) : H - k ∈ passed ∨ k = (H - u).toNat := by
    refine (List.mem_append.mp hmem).imp_right (fun hu ↦ ?_)
    have := List.mem_singleton.mp hu
    omega
  rw [offer_behind h.seen h.highest hlo hhi] at hok ⊢
  split_ifs at hok ⊢
  · refine ⟨hlargest, h.seen, h.highest, fun k hk hmem ↦ ?_⟩
    rcases hsplit k hmem with hmem | rfl
    · simp [h.covered k hk hmem]
    · simp [hk]
  · refine ⟨hlargest, h.seen, h.highest, fun k hk hmem ↦ ?_⟩
    rcases hsplit k hmem with hmem | rfl
    · exact h.covered k hk hmem
    · omega

theorem Tracks.step (h : Tracks r passed H) (hok : (offer r u).2 = .ok ())
    (hnear : |u - H| ≤ 2 ^ 31) : ∃ H', Tracks (offer r u).1 (passed ++ [u]) H' := by
  have hbounds := abs_le.mp hnear
  rcases lt_trichotomy u H with hlt | heq | hgt
  · exact ⟨H, h.behind (by omega) (by omega) hok⟩
  · subst heq
    rw [offer_highest h.seen h.highest] at hok
    cases hok
  · by_cases hhalf : u - H = 2 ^ 31
    · rw [offer_opposite h.seen h.highest hhalf] at hok
      cases hok
    · exact ⟨u, h.ahead (by omega) (by omega)⟩

end Step

theorem tracks_run (packets : List ℤ) (hnear : StaysNear packets) :
    (accepted packets = [] → (run offer .new packets).seen = false) ∧
      (accepted packets ≠ [] → ∃ H, Tracks (run offer .new packets) (accepted packets) H) := by
  induction packets using List.reverseRecOn with
  | nil => exact ⟨fun _ ↦ rfl, fun h ↦ absurd rfl h⟩
  | append_singleton before u ih =>
    obtain ⟨hfresh, htracks⟩ := ih (fun b v hb ↦ hnear b v (hb.trans (List.prefix_append _ _)))
    have hu := hnear before u List.prefix_rfl
    rw [run_concat, accepted_concat]
    cases hans : (offer (run offer .new before) u).2 with
    | error e =>
      have hnone : (if (Except.error e : Except ReliabilityError Unit).isOk then [u] else []) = [] :=
        rfl
      rw [offer_error hans, hnone, List.append_nil]
      exact ⟨hfresh, htracks⟩
    | ok x =>
      refine ⟨fun h ↦ by simp [Except.isOk, Except.toBool] at h, fun _ ↦ ?_⟩
      have hsome : (if (Except.ok x : Except ReliabilityError Unit).isOk then [u] else []) = [u] :=
        rfl
      rw [hsome]
      by_cases hnil : accepted before = []
      · have hs := hfresh hnil
        have hfirst : (offer (run offer .new before) u).1 = ⟨BitVec.ofInt 32 u, true, 1⟩ := by
          simp [offer, validate, hs]
        rw [hfirst, hnil]
        exact ⟨u, tracks_first u⟩
      · obtain ⟨H, hH⟩ := htracks hnil
        exact hH.step hans (hu hans H hH.largest)

/-- A packet that was let through before is let through again exactly in the blind spot. -/
theorem replayed_iff {r : ReliabilityState} {passed : List ℤ} {H u : ℤ} (h : Tracks r passed H)
    (hu : u ∈ passed) (hnear : (offer r u).2 = .ok () → |u - H| ≤ 2 ^ 31) :
    (offer r u).2 = .ok () ↔ 64 ≤ H - u ∧ H - u < 1024 := by
  have hle := h.le hu
  constructor
  · intro hok
    have hbounds := abs_le.mp (hnear hok)
    have hne : u ≠ H := by
      intro heq
      subst heq
      rw [offer_highest h.seen h.highest] at hok
      cases hok
    have hcov := fun hlt ↦ h.covered (H - u).toNat hlt (by convert hu using 1; omega)
    rw [offer_behind h.seen h.highest (by omega) (by omega)] at hok
    split_ifs at hok with h1024 h64 hbit
    · exact absurd (hcov (by omega)) hbit
    · omega
  · intro hparts
    obtain ⟨hlo, hhi⟩ := hparts
    rw [offer_behind h.seen h.highest (by omega) (by omega), if_neg (by omega), if_neg (by omega)]

/-- As long as what is let through stays within half the sequence space of the largest packet, no
packet passes twice exactly when none comes back in the blind spot. -/
theorem no_replay_iff (packets : List ℤ) (hnear : StaysNear packets) :
    NoReplay packets ↔ AvoidsBlindSpot packets := by
  have hreplayed (before : List ℤ) (u H : ℤ) (hpre : before ++ [u] <+: packets)
      (hu : u ∈ accepted before) (hH : Largest before H) :
      Accepts before u ↔ 64 ≤ H - u ∧ H - u < 1024 := by
    have hsub : StaysNear before := fun b v hb ↦
      hnear b v (hb.trans ((List.prefix_append _ _).trans hpre))
    obtain ⟨H', hT⟩ := (tracks_run before hsub).2 (List.ne_nil_of_mem hu)
    have hsame : H' = H := hT.largest.unique hH
    subst hsame
    exact replayed_iff hT hu (fun hok ↦ hnear before u hpre hok H' hT.largest)
  constructor
  · intro h before u hpre hu H hH hblind
    obtain ⟨e, he⟩ := h before u hpre hu
    have hok : (offer (run offer .new before) u).2 = .ok () :=
      (hreplayed before u H hpre hu hH).mpr hblind
    rw [he] at hok
    cases hok
  · intro h before u hpre hu
    cases hans : (offer (run offer .new before) u).2 with
    | error e => exact ⟨e, rfl⟩
    | ok x =>
      have hsub : StaysNear before := fun b v hb ↦
        hnear b v (hb.trans ((List.prefix_append _ _).trans hpre))
      obtain ⟨H, hT⟩ := (tracks_run before hsub).2 (List.ne_nil_of_mem hu)
      have hblind := (hreplayed before u H hpre hu hT.largest).mp hans
      exact absurd hblind (h before u hpre hu H hT.largest)

theorem accepted_subset {packets : List ℤ} {u : ℤ} (h : u ∈ accepted packets) : u ∈ packets := by
  induction packets using List.reverseRecOn with
  | nil => exact h
  | append_singleton before v ih =>
    rw [accepted_concat] at h
    rcases List.mem_append.mp h with h | h
    · exact List.mem_append_left _ (ih h)
    · split at h
      · exact List.mem_append_right _ h
      · cases h

theorem staysNear_of_span {packets : List ℤ} (lo : ℤ)
    (h : ∀ u ∈ packets, lo ≤ u ∧ u ≤ lo + 2 ^ 31) : StaysNear packets := by
  intro before u hpre _ H hH
  have hu := h u (hpre.subset (by simp))
  have hHmem := h H (hpre.subset (List.mem_append_left _ (accepted_subset hH.1)))
  rw [abs_le]
  omega

/-- Out of order, then a duplicate of each. -/
theorem gapFill_no_replay :
    StaysNear [100, 103, 101, 101, 103] ∧ NoReplay [100, 103, 101, 101, 103] := by
  have hnear : StaysNear [100, 103, 101, 101, 103] := staysNear_of_span 100 (by decide)
  refine ⟨hnear, (no_replay_iff _ hnear).mpr ?_⟩
  intro before u hpre _ H hH hblind
  have hspan : ∀ v ∈ [100, 103, 101, 101, 103], (100 : ℤ) ≤ v ∧ v ≤ 103 := by decide
  have hu := hspan u (hpre.subset (by simp))
  have hHmem := hspan H (hpre.subset (List.mem_append_left _ (accepted_subset hH.1)))
  omega

/-- A jump of a hundred forgets packet 0 while the window still lets it in. -/
theorem jump_replayed : StaysNear [0, 100, 0] ∧ ¬NoReplay [0, 100, 0] := by
  refine ⟨staysNear_of_span 0 (by decide), fun h ↦ ?_⟩
  obtain ⟨e, he⟩ := h [0, 100] 0 (by decide) (by decide)
  have hok : (offer (run offer .new [0, 100]) 0).2 = .ok () := by decide
  rw [hok] at he
  cases he

end Aldivine.Network.Reliability
