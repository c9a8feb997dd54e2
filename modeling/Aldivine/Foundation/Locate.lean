import Mathlib.Data.List.Basic

namespace Aldivine.Foundation.Locate

variable {α : Type}

/-- The first match of a linear search, with what stands before and after it. -/
structure Located (α : Type) where
  before : List α
  found : α
  after : List α
deriving DecidableEq

/-- Search from the front, as `Iterator::position` and `Iterator::find` do. -/
def locate (p : α → Bool) : List α → Option (Located α)
  | [] => none
  | x :: l =>
    if p x then some ⟨[], x, l⟩
    else (locate p l).map (fun r ↦ ⟨x :: r.before, r.found, r.after⟩)

def Located.rest (r : Located α) : List α := r.before ++ r.after

def Located.put (r : Located α) (x : α) : List α := r.before ++ x :: r.after

variable {p : α → Bool} {l : List α}

theorem locate_split {r : Located α} (h : locate p l = some r) :
    l = r.before ++ r.found :: r.after ∧ p r.found = true ∧ ∀ x ∈ r.before, p x = false := by
  induction l generalizing r with
  | nil => cases h
  | cons x l ih =>
    simp only [locate] at h
    split at h
    · cases h
      exact ⟨rfl, ‹_›, fun _ hx ↦ by cases hx⟩
    · obtain ⟨r', hr', rfl⟩ := Option.map_eq_some_iff.mp h
      obtain ⟨he, hp, hb⟩ := ih hr'
      refine ⟨congrArg (x :: ·) he, hp, fun y hy ↦ ?_⟩
      rcases List.mem_cons.mp hy with rfl | hy
      · simpa using ‹¬p y = true›
      · exact hb y hy

theorem locate_eq_none : locate p l = none ↔ ∀ x ∈ l, p x = false := by
  induction l with
  | nil => simp [locate]
  | cons x l ih =>
    simp only [locate, List.forall_mem_cons]
    split
    · simp_all
    · simp_all

theorem locate_append {a b : List α} {x : α} (ha : ∀ y ∈ a, p y = false) (hx : p x = true) :
    locate p (a ++ x :: b) = some ⟨a, x, b⟩ := by
  induction a with
  | nil => simp [locate, hx]
  | cons y a ih =>
    have hy := ha y List.mem_cons_self
    have hl := ih (fun z hz ↦ ha z (List.mem_cons_of_mem _ hz))
    simp [locate, hy, hl]

theorem locate_mem {r : Located α} (h : locate p l = some r) : r.found ∈ l := by
  rw [(locate_split h).1]
  exact List.mem_append_right _ List.mem_cons_self

theorem locate_perm {r : Located α} (h : locate p l = some r) : l.Perm (r.found :: r.rest) := by
  rw [(locate_split h).1]
  exact List.perm_middle

theorem locate_length {r : Located α} (h : locate p l = some r) :
    l.length = r.rest.length + 1 := (locate_perm h).length_eq

section Order

def Precedes (l : List α) (x y : α) : Prop := [x, y].Sublist l

variable {x y z : α} {l' : List α}

theorem Precedes.tail (h : Precedes (z :: l) x y) (hxz : x ≠ z) : Precedes l x y := by
  cases h with
  | cons _ h => exact h
  | cons_cons _ _ => exact absurd rfl hxz

theorem Precedes.mem_right (h : Precedes l x y) : y ∈ l :=
  h.subset (List.mem_cons_of_mem _ List.mem_cons_self)

theorem Precedes.append (h : Precedes l x y) (more : List α) : Precedes (l ++ more) x y :=
  h.trans (List.sublist_append_left _ _)

theorem precedes_concat (hx : x ∈ l) : Precedes (l ++ [y]) x y :=
  (List.singleton_sublist.mpr hx).append (List.Sublist.refl [y])

theorem Precedes.keep (hsub : l'.Sublist l) (hnodup : l.Nodup) (h : Precedes l x y) (hx : x ∈ l')
    (hy : y ∈ l') : Precedes l' x y := by
  induction hsub with
  | slnil => exact absurd hx List.not_mem_nil
  | cons z hsub ih =>
    obtain ⟨hz, hnodup⟩ := List.nodup_cons.mp hnodup
    have hxz : x ≠ z := fun he ↦ hz (he ▸ hsub.subset hx)
    exact ih hnodup (h.tail hxz) hx hy
  | cons_cons z hsub ih =>
    obtain ⟨hz, hnodup⟩ := List.nodup_cons.mp hnodup
    cases h with
    | cons_cons _ h =>
      have hyz : y ≠ x := fun he ↦ hz (he ▸ h.subset List.mem_cons_self)
      have hy' := (List.mem_cons.mp hy).resolve_left hyz
      exact (List.singleton_sublist.mpr hy').cons_cons x
    | cons _ h =>
      have hxz : x ≠ z := fun he ↦ hz (he ▸ h.subset List.mem_cons_self)
      have hyz : y ≠ z := fun he ↦ hz (he ▸ Precedes.mem_right h)
      have hkept := ih hnodup h ((List.mem_cons.mp hx).resolve_left hxz)
        ((List.mem_cons.mp hy).resolve_left hyz)
      exact List.Sublist.cons z hkept

theorem locate_first {r : Located α} (h : locate p l = some r) (hnodup : l.Nodup)
    (hx : Precedes l x r.found) : p x = false := by
  induction l generalizing r with
  | nil => cases h
  | cons z l ih =>
    obtain ⟨hz, hnodup⟩ := List.nodup_cons.mp hnodup
    simp only [locate] at h
    split at h
    · cases h
      cases hx with
      | cons _ hx => exact absurd (Precedes.mem_right hx) hz
      | cons_cons _ hx => exact absurd (List.singleton_sublist.mp hx) hz
    · rename_i hp
      obtain ⟨r', hr', rfl⟩ := Option.map_eq_some_iff.mp h
      cases hx with
      | cons _ hx => exact ih hr' hnodup hx
      | cons_cons _ _ => exact Bool.not_eq_true _ ▸ hp

end Order

section Reordering

variable {β : Type} {x : α} {l' : List α}

theorem find?_eq_of_unique (hx : x ∈ l) (hp : p x = true) (hunique : ∀ y ∈ l, p y = true → y = x) :
    l.find? p = some x := by
  cases hfind : l.find? p with
  | none => exact absurd hp (List.find?_eq_none.mp hfind x hx)
  | some y => rw [hunique y (List.mem_of_find?_eq_some hfind) (List.find?_some hfind)]

/-- Where all matches give the same, it does not matter which one stands first. -/
theorem find?_map_perm {f : α → β} (hperm : l'.Perm l)
    (hsame : ∀ x ∈ l, ∀ y ∈ l, p x = true → p y = true → f x = f y) :
    (l'.find? p).map f = (l.find? p).map f := by
  cases hfind : l.find? p with
  | none =>
    have hnone : l'.find? p = none :=
      List.find?_eq_none.mpr (fun x hx ↦ List.find?_eq_none.mp hfind x (hperm.mem_iff.mp hx))
    rw [hnone]
  | some x =>
    have hx := List.mem_of_find?_eq_some hfind
    have hpx := List.find?_some hfind
    cases hfind' : l'.find? p with
    | none => exact absurd hpx (List.find?_eq_none.mp hfind' x (hperm.mem_iff.mpr hx))
    | some y =>
      have hy := hperm.mem_iff.mp (List.mem_of_find?_eq_some hfind')
      rw [Option.map_some, Option.map_some, hsame y hy x hx (List.find?_some hfind') hpx]

theorem exists_perm_cons (hx : x ∈ l) : ∃ rest, (x :: rest).Perm l := by
  obtain ⟨before, after, rfl⟩ := List.append_of_mem hx
  exact ⟨before ++ after, List.perm_middle.symm⟩

theorem exists_perm_concat (hx : x ∈ l) : ∃ rest, (rest ++ [x]).Perm l := by
  obtain ⟨rest, hrest⟩ := exists_perm_cons hx
  exact ⟨rest, List.perm_append_comm.trans hrest⟩

end Reordering

end Aldivine.Foundation.Locate
