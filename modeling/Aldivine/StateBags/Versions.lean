import Aldivine.Foundation.Execution
import Aldivine.StateBags.Model

namespace Aldivine.StateBags.Versions

open Foundation.Execution Foundation.Machine Model Std

def Reflags (b : StateBag) : Call → Prop
  | .setReplicated key replicated _ => ∃ slot, b.values[key]? = some slot ∧ slot.2 ≠ replicated
  | _ => False

/-- Any two points of the run with the same number have the same replicated snapshot. -/
def Versioned (mode : Overflow) (b : StateBag) (calls : List Call) : Prop :=
  ∀ p q, p <+: calls → q <+: calls →
    (run (step mode) b p).seq = (run (step mode) b q).seq →
    (run (step mode) b p).snapshotReplicated = (run (step mode) b q).snapshotReplicated

variable {mode : Overflow} {b b' : StateBag} {key : String}

theorem mem_snapshotReplicated {v : Value} :
    (key, v) ∈ b.snapshotReplicated ↔ b.values[key]? = some (v, true) := by
  rw [← ExtTreeMap.mem_toList_iff_getElem?_eq_some]
  simp [StateBag.snapshotReplicated]

theorem insert_slot {slot : Value × Bool} (hslot : b.values[key]? = some slot) :
    b.values.insert key slot = b.values := by
  refine ExtTreeMap.ext_getElem? (fun k ↦ ?_)
  rw [ExtTreeMap.getElem?_insert]
  simp only [Std.compare_eq_iff_eq]
  split
  · subst_vars
    exact hslot.symm
  · rfl

theorem snapshotReplicated_reflag {slot : Value × Bool} {replicated : Bool}
    (hslot : b.values[key]? = some slot) (hne : slot.2 ≠ replicated)
    (hb : b'.values = b.values.insert key (slot.1, replicated)) :
    b'.snapshotReplicated ≠ b.snapshotReplicated := by
  intro heq
  have hafter : (key, slot.1) ∈ b'.snapshotReplicated ↔ replicated = true := by
    rw [mem_snapshotReplicated, hb, ExtTreeMap.getElem?_insert_self]
    simp
  have hbefore : (key, slot.1) ∈ b.snapshotReplicated ↔ slot.2 = true := by
    rw [mem_snapshotReplicated, hslot]
    exact ⟨fun h ↦ congrArg Prod.snd (Option.some.inj h), fun h ↦ by rw [← h]⟩
  rw [heq] at hafter
  exact hne (Bool.eq_iff_iff.mpr (hbefore.symm.trans hafter))

theorem step_versioned (mode : Overflow) (hroom : b.seq.toNat + 1 < 2 ^ 64) (call : Call) :
    (step mode b call).1.seq.toNat = b.seq.toNat + 1 ∧ ¬Reflags b call ∨
      (step mode b call).1.seq = b.seq ∧
        ((step mode b call).1.snapshotReplicated = b.snapshotReplicated ↔
          (Accepts b call → ¬Reflags b call)) := by
  obtain ⟨y, hy, hsucc⟩ := add_one_of_room mode hroom
  have hstepped := stepped mode b call
  generalize step mode b call = r at hstepped
  cases hstepped with
  | refused hno => exact .inr ⟨rfl, iff_of_true rfl (fun hok ↦ absurd hok hno)⟩
  | written hok hseq =>
    cases hseq.symm.trans hy
    exact .inl ⟨hsucc, id⟩
  | writePanic hok hseq => cases hseq.symm.trans hy
  | @flagged key replicated writer slot hok hslot =>
    refine .inr ⟨rfl, ?_⟩
    by_cases hflag : slot.2 = replicated
    · refine iff_of_true ?_ ?_
      · subst hflag
        simp only [StateBag.snapshotReplicated, insert_slot hslot]
      · rintro - ⟨slot', hslot', hne⟩
        cases hslot.symm.trans hslot'
        exact hne hflag
    · refine iff_of_false (snapshotReplicated_reflag hslot hflag rfl) (fun hnever ↦ ?_)
      exact hnever hok ⟨slot, hslot, hflag⟩
  | made hok hslot hseq =>
    cases hseq.symm.trans hy
    refine .inl ⟨hsucc, ?_⟩
    rintro ⟨slot, hslot', -⟩
    cases hslot.symm.trans hslot'
  | makePanic hok hslot hseq => cases hseq.symm.trans hy
  | missing hok hslot => exact .inr ⟨rfl, iff_of_true rfl (fun _ ↦ id)⟩
  | deleted hok hslot hseq =>
    cases hseq.symm.trans hy
    exact .inl ⟨hsucc, id⟩
  | deletePanic hok hslot hseq => cases hseq.symm.trans hy
  | owned => exact .inr ⟨rfl, iff_of_true rfl (fun _ ↦ id)⟩

/-- As long as the number has room to grow, it versions the replicated snapshot exactly when no
accepted call turns the flag of a key that exists. -/
theorem snapshot_versioned_iff (calls : List Call)
    (hroom : ∀ x ∈ trace (step mode) b calls, x.1.seq.toNat + 1 < 2 ^ 64) :
    Versioned mode b calls ↔
      ∀ x ∈ trace (step mode) b calls, Accepts x.1 x.2 → ¬Reflags x.1 x.2 := by
  have hmono : ∀ x ∈ trace (step mode) b calls,
      x.1.seq.toNat ≤ (step mode x.1 x.2).1.seq.toNat := by
    intro x hx
    rcases step_versioned mode (hroom x hx) x.2 with ⟨hsucc, -⟩ | ⟨hsame, -⟩
    · rw [hsucc]
      exact Nat.le_succ _
    · rw [hsame]
  simp only [Versioned, ← BitVec.toNat_inj]
  refine (versioned_run_iff (fun b ↦ b.seq.toNat) StateBag.snapshotReplicated calls
    hmono).trans ?_
  refine forall₂_congr (fun x hx ↦ ?_)
  rcases step_versioned mode (hroom x hx) x.2 with ⟨hsucc, hnot⟩ | ⟨hsame, hiff⟩
  · refine iff_of_true (fun heq ↦ ?_) (fun _ ↦ hnot)
    rw [heq] at hsucc
    exact absurd hsucc (Nat.ne_of_lt (Nat.lt_succ_self _))
  · exact ⟨fun h ↦ hiff.mp (h (by rw [hsame])), fun h _ ↦ hiff.mpr h⟩

theorem two_writes_versioned :
    Versioned .panics (.new "player" .open)
      [.set "hp" (.int 5) 1, .set "hp" (.int 6) 1] := by
  refine (snapshot_versioned_iff _ ?_).mpr ?_
  · intro x hx
    rcases List.mem_cons.mp hx with rfl | hx
    · decide
    · cases List.mem_singleton.mp hx
      decide
  · intro x hx _
    rcases List.mem_cons.mp hx with rfl | hx
    · exact id
    · cases List.mem_singleton.mp hx
      exact id

/-- Taking a written key out of the replicated view does not move the number. -/
theorem unflag_not_versioned :
    ¬Versioned .panics (.new "player" .open)
      [.set "hp" (.int 5) 1, .setReplicated "hp" false 1] := by
  intro hall
  have hslot : (run (step .panics) (.new "player" .open)
      [.set "hp" (.int 5) 1]).values["hp"]? = some (.int 5, true) := ExtTreeMap.getElem?_insert_self
  have hflag := (step_versioned .panics (by decide)
    (.setReplicated "hp" false 1)).resolve_left
      (fun h ↦ h.2 ⟨(.int 5, true), hslot, Bool.noConfusion⟩)
  have hsame := hall _ [.set "hp" (.int 5) 1] List.prefix_rfl (List.prefix_append _ _) hflag.1
  exact hflag.2.mp hsame rfl ⟨(.int 5, true), hslot, Bool.noConfusion⟩

end Aldivine.StateBags.Versions
