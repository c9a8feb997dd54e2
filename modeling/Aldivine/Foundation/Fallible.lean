import Mathlib.Data.List.Forall2

namespace Aldivine.Foundation.Fallible

variable {ε δ α β : Type} {x : Except ε α} {a : α}

theorem bind_eq_ok {f : α → Except ε β} {b : β} :
    x >>= f = .ok b ↔ ∃ a, x = .ok a ∧ f a = .ok b := by
  cases x with
  | error e => exact iff_of_false nofun nofun
  | ok a =>
    constructor
    · intro h
      exact ⟨a, rfl, h⟩
    · intro h
      obtain ⟨a, ⟨⟩, h⟩ := h
      exact h

theorem check_bind_eq_ok {check : Except ε Unit} {f : Unit → Except ε β} {b : β} :
    check >>= f = .ok b ↔ check = .ok () ∧ f () = .ok b := by
  rw [bind_eq_ok]
  constructor
  · intro h
    obtain ⟨_, hcheck, hf⟩ := h
    exact ⟨hcheck, hf⟩
  · intro h
    exact ⟨(), h⟩

theorem mapError_eq_ok {report : ε → δ} : x.mapError report = .ok a ↔ x = .ok a := by
  cases x with
  | error e => exact iff_of_false nofun nofun
  | ok b => exact ⟨fun h ↦ by cases h; rfl, fun h ↦ by cases h; rfl⟩

theorem toOption_eq_some : x.toOption = some a ↔ x = .ok a := by
  cases x with
  | error e => exact iff_of_false nofun nofun
  | ok b => exact ⟨fun h ↦ by cases h; rfl, fun h ↦ by cases h; rfl⟩

theorem toOption_map (f : α → β) (x : Except ε α) : (x.map f).toOption = x.toOption.map f := by
  cases x with
  | error e => rfl
  | ok a => rfl

theorem toOption_bind (x : Except ε α) (f : α → Except ε β) :
    (x >>= f).toOption = x.toOption.bind (fun a ↦ (f a).toOption) := by
  cases x with
  | error e => rfl
  | ok a => rfl

theorem mapM_eq_ok {f : α → Except ε β} {l : List α} {bs : List β} :
    l.mapM f = .ok bs ↔ List.Forall₂ (fun a b ↦ f a = .ok b) l bs := by
  induction l generalizing bs with
  | nil =>
    rw [List.mapM_nil, List.forall₂_nil_left_iff]
    exact ⟨fun h ↦ by cases h; rfl, fun h ↦ by rw [h]; rfl⟩
  | cons a l ih =>
    rw [List.mapM_cons, bind_eq_ok, List.forall₂_cons_left_iff]
    refine exists_congr (fun b ↦ ?_)
    rw [bind_eq_ok]
    constructor
    · intro h
      obtain ⟨ha, bs, hl, ⟨⟩⟩ := h
      exact ⟨bs, ha, ih.mp hl, rfl⟩
    · intro h
      obtain ⟨bs, ha, hl, rfl⟩ := h
      exact ⟨ha, bs, ih.mpr hl, rfl⟩

theorem forM_eq_ok {f : α → Except ε Unit} {l : List α} :
    forM l f = .ok () ↔ ∀ a ∈ l, f a = .ok () := by
  induction l with
  | nil => exact iff_of_true rfl (List.forall_mem_nil _)
  | cons a l ih =>
    rw [List.forM_cons, bind_eq_ok, List.forall_mem_cons]
    constructor
    · intro h
      obtain ⟨_, ha, hl⟩ := h
      exact ⟨ha, ih.mp hl⟩
    · intro h
      exact ⟨(), h.1, ih.mpr h.2⟩

def okOr (o : Option α) (e : ε) : Except ε α := o.elim (.error e) .ok

/-- An early return of `e` where `p` holds. -/
def refuse (p : Prop) [Decidable p] (e : ε) : Except ε Unit := if p then .error e else .ok ()

theorem okOr_eq_ok {o : Option α} {e : ε} : okOr o e = .ok a ↔ o = some a := by
  cases o with
  | none => exact iff_of_false nofun nofun
  | some b => exact ⟨fun h ↦ by cases h; rfl, fun h ↦ by cases h; rfl⟩

theorem refuse_eq_ok {p : Prop} [Decidable p] {e : ε} : refuse p e = .ok () ↔ ¬p := by
  unfold refuse
  split
  · rename_i hp
    exact iff_of_false nofun (not_not_intro hp)
  · rename_i hp
    exact iff_of_true rfl hp

end Aldivine.Foundation.Fallible
