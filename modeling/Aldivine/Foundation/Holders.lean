import Mathlib.Data.List.Nodup
import Mathlib.Logic.ExistsUnique
import Mathlib.Logic.Function.Basic
import Mathlib.Tactic.ByContra

namespace Aldivine.Foundation.Holders

variable {Peer Id : Type}

/-- Two stores are in step: every id of the first store is held by exactly one peer of the second,
every holder's id is in the first, and every place belongs to an id somebody carries. -/
structure Matched (ready carries : Peer → Id → Prop) (playing waiting : Id → Prop) : Prop where
  holder : ∀ id, playing id → ∃! p, ready p id
  playing_of_ready : ∀ p id, ready p id → playing id
  carried : ∀ id, playing id ∨ waiting id → ∃ p, carries p id

variable {ready ready' carries carries' : Peer → Id → Prop}
  {playing playing' waiting waiting' : Id → Prop} {p : Peer} {a : Id}

theorem Matched.congr (h : Matched ready carries playing waiting)
    (hready : ∀ q id, ready' q id ↔ ready q id)
    (hcarried : ∀ id, playing id ∨ waiting' id → ∃ q, carries' q id) :
    Matched ready' carries' playing waiting' where
  holder id hid := by
    obtain ⟨q, hq, huniq⟩ := h.holder id hid
    exact ⟨q, (hready q id).mpr hq, fun r hr ↦ huniq r ((hready r id).mp hr)⟩
  playing_of_ready q id hq := h.playing_of_ready q id ((hready q id).mp hq)
  carried := hcarried

/-- When one peer stops being a holder while its places stay, the stores stay in step exactly when
it held nothing. -/
theorem Matched.drop_iff (h : Matched ready carries playing waiting)
    (hready : ∀ q id, ready' q id ↔ q ≠ p ∧ ready q id) :
    Matched ready' carries' playing waiting' ↔
      (∀ id, ¬ready p id) ∧ ∀ id, playing id ∨ waiting' id → ∃ q, carries' q id := by
  constructor
  · intro h'
    refine ⟨fun id hp ↦ ?_, h'.carried⟩
    obtain ⟨q, hq, -⟩ := h'.holder id (h.playing_of_ready p id hp)
    have hq' := (hready q id).mp hq
    exact hq'.1 ((h.holder id (h.playing_of_ready p id hp)).unique hq'.2 hp)
  · intro hparts
    obtain ⟨hnone, hcarried⟩ := hparts
    refine h.congr (fun q id ↦ ?_) hcarried
    rw [hready]
    exact ⟨And.right, fun hq ↦ ⟨fun hqp ↦ hnone id (hqp ▸ hq), hq⟩⟩

theorem Matched.take (h : Matched ready carries playing waiting) (ha : ¬playing a)
    (hready : ∀ q id, ready' q id ↔ (q = p ∧ id = a) ∨ ready q id)
    (hplaying : ∀ id, playing' id ↔ playing id ∨ id = a)
    (hcarries : ∀ q id, carries q id → carries' q id) (hp : carries' p a)
    (hwaiting : ∀ id, waiting' id → waiting id) :
    Matched ready' carries' playing' waiting' where
  holder id hid := by
    rcases (hplaying id).mp hid with hid | rfl
    · have hne : id ≠ a := fun he ↦ ha (he ▸ hid)
      obtain ⟨q, hq, huniq⟩ := h.holder id hid
      refine ⟨q, (hready q id).mpr (.inr hq), fun r hr ↦ huniq r ?_⟩
      exact ((hready r id).mp hr).resolve_left (fun hr ↦ hne hr.2)
    · refine ⟨p, (hready p id).mpr (.inl ⟨rfl, rfl⟩), fun r hr ↦ ?_⟩
      rcases (hready r id).mp hr with hr | hr
      · exact hr.1
      · exact absurd (h.playing_of_ready r id hr) ha
  playing_of_ready q id hq := by
    rw [hplaying]
    rcases (hready q id).mp hq with hq | hq
    · exact .inr hq.2
    · exact .inl (h.playing_of_ready q id hq)
  carried id hid := by
    have hold : playing id ∨ waiting id ∨ id = a := by
      rcases hid with hid | hid
      · exact ((hplaying id).mp hid).imp_right .inr
      · exact .inr (.inl (hwaiting id hid))
    rcases hold with hid | hid | rfl
    · exact (h.carried id (.inl hid)).imp (fun q ↦ hcarries q id)
    · exact (h.carried id (.inr hid)).imp (fun q ↦ hcarries q id)
    · exact ⟨p, hp⟩

/-- Peer `p`, who carried `a`, leaves; `a` gives up its place and possibly another id moves up into
it. The stores stay in step exactly when `p` was the holder and nobody moved up. -/
theorem Matched.leave_iff {out : Option Id} (h : Matched ready carries playing waiting)
    (ha : playing a) (hsub : ∀ q id, ready q id → carries q id)
    (hfun : ∀ id, ready p id → id = a)
    (hready : ∀ q id, ready' q id ↔ q ≠ p ∧ ready q id)
    (hcarries : ∀ q id, q ≠ p → carries q id → carries' q id)
    (hplaying : ∀ id, playing' id ↔ (playing id ∧ id ≠ a) ∨ out = some id)
    (hmoved : ∀ id, out = some id → ¬playing id)
    (hnone : out = none → ∀ id, ¬waiting' id) :
    Matched ready' carries' playing' waiting' ↔ ready p a ∧ out = none := by
  obtain ⟨r, hr, huniq⟩ := h.holder a ha
  constructor
  · intro h'
    constructor
    · by_contra hp
      have hrp : r ≠ p := fun he ↦ hp (he ▸ hr)
      have hplay := h'.playing_of_ready r a ((hready r a).mpr ⟨hrp, hr⟩)
      rcases (hplaying a).mp hplay with hplay | hplay
      · exact hplay.2 rfl
      · exact hmoved a hplay ha
    · cases hout : out with
      | none => rfl
      | some id =>
        obtain ⟨q, hq, -⟩ := h'.holder id ((hplaying id).mpr (.inr hout))
        exact absurd (h.playing_of_ready q id ((hready q id).mp hq).2) (hmoved id hout)
  · intro hparts
    obtain ⟨hp, rfl⟩ := hparts
    have hrp : r = p := (huniq p hp).symm
    have hold (id : Id) (hid : playing' id) : playing id ∧ id ≠ a := by
      simpa using (hplaying id).mp hid
    have hholder (id : Id) (hid : playing' id) : ∃! q, ready' q id := by
      obtain ⟨q, hq, hquniq⟩ := h.holder id (hold id hid).1
      refine ⟨q, (hready q id).mpr ⟨fun he ↦ (hold id hid).2 (hfun id (he ▸ hq)), hq⟩, ?_⟩
      exact fun t ht ↦ hquniq t ((hready t id).mp ht).2
    refine ⟨hholder, fun q id hq ↦ ?_, fun id hid ↦ ?_⟩
    · have hq' := (hready q id).mp hq
      refine (hplaying id).mpr (.inl ⟨h.playing_of_ready q id hq'.2, ?_⟩)
      intro heq
      subst heq
      exact hq'.1 ((huniq q hq'.2).trans hrp)
    · obtain ⟨q, hq, -⟩ := hholder id (hid.resolve_right (hnone rfl id))
      have hq' := (hready q id).mp hq
      exact ⟨q, hcarries q id hq'.1 (hsub q id hq'.2)⟩

end Aldivine.Foundation.Holders

namespace Aldivine.Foundation.Generations

variable {ι : Type}

/-- Names made of a place and the generation the place was in. A name that was issued is either the
current one of an occupied place or belongs to a generation that has passed; a revoked one belongs
to a generation that has passed. -/
structure Issued (gen : ι → ℕ) (occupied : ι → Prop) (issued revoked : List (ι × ℕ)) : Prop where
  nodup : issued.Nodup
  current : ∀ id ∈ issued, id.2 < gen id.1 ∨ (id.2 = gen id.1 ∧ occupied id.1)
  passed : ∀ id ∈ revoked, id.2 < gen id.1

variable {gen gen' : ι → ℕ} {occupied occupied' : ι → Prop} {issued revoked : List (ι × ℕ)} {i : ι}

theorem issued_nil : Issued gen occupied [] [] where
  nodup := List.nodup_nil
  current := fun _ h ↦ by cases h
  passed := fun _ h ↦ by cases h

theorem Issued.congr (h : Issued gen occupied issued revoked) (hgen : ∀ j, gen' j = gen j)
    (hocc : ∀ j, occupied' j ↔ occupied j) : Issued gen' occupied' issued revoked := by
  obtain rfl : gen' = gen := funext hgen
  obtain rfl : occupied' = occupied := funext (fun j ↦ propext (hocc j))
  exact h

theorem Issued.issue (h : Issued gen occupied issued revoked) (hfree : ¬occupied i)
    (hgen : ∀ j, gen' j = gen j) (hocc : ∀ j, occupied' j ↔ occupied j ∨ j = i) :
    Issued gen' occupied' (issued ++ [(i, gen i)]) revoked := by
  obtain rfl : gen' = gen := funext hgen
  refine ⟨?_, fun id hid ↦ ?_, h.passed⟩
  · -- an older name of the place is of an earlier generation, since the place was empty
    rw [List.nodup_append_comm, List.singleton_append, List.nodup_cons]
    refine ⟨fun hold ↦ ?_, h.nodup⟩
    rcases h.current _ hold with hlt | ⟨-, hbusy⟩
    · exact Nat.lt_irrefl _ hlt
    · exact hfree hbusy
  · rcases List.mem_append.mp hid with hid | hid
    · exact (h.current id hid).imp_right (fun hcur ↦ ⟨hcur.1, (hocc _).mpr (.inl hcur.2)⟩)
    · rw [List.mem_singleton.mp hid]
      exact .inr ⟨rfl, (hocc i).mpr (.inr rfl)⟩

theorem Issued.revoke [DecidableEq ι] (h : Issued gen occupied issued revoked)
    (hgen : ∀ j, gen' j = if j = i then gen i + 1 else gen j)
    (hocc : ∀ j, occupied' j ↔ occupied j ∧ j ≠ i) :
    Issued gen' occupied' issued (revoked ++ [(i, gen i)]) := by
  have hle (j : ι) : gen j ≤ gen' j := by
    rw [hgen]
    split
    · rename_i hj
      rw [hj]
      exact Nat.le_succ _
    · exact Nat.le_refl _
  have hnext : gen' i = gen i + 1 := (hgen i).trans (if_pos rfl)
  refine ⟨h.nodup, fun id hid ↦ ?_, fun id hid ↦ ?_⟩
  · rcases h.current id hid with hlt | ⟨heq, hbusy⟩
    · exact .inl (Nat.lt_of_lt_of_le hlt (hle id.1))
    · by_cases hi : id.1 = i
      · left
        rw [heq, hi, hnext]
        exact Nat.lt_succ_self _
      · right
        refine ⟨?_, (hocc _).mpr ⟨hbusy, hi⟩⟩
        rw [heq, hgen, if_neg hi]
  · rcases List.mem_append.mp hid with hid | hid
    · exact Nat.lt_of_lt_of_le (h.passed id hid) (hle id.1)
    · rw [List.mem_singleton.mp hid, hnext]
      exact Nat.lt_succ_self _

end Aldivine.Foundation.Generations
