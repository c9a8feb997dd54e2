import Aldivine.Foundation.Machine

namespace Aldivine.Foundation.Checked

open Machine

variable {ε α β σ ι : Type}

/-- An error or a panic ends the computation. -/
def bind (x : Outcome ε α) (f : α → Outcome ε β) : Outcome ε β :=
  match x with
  | .ok a => f a
  | .err e => .err e
  | .panic => .panic

instance : Monad (Outcome ε) where
  pure := .ok
  bind := Checked.bind

instance : LawfulMonad (Outcome ε) :=
  LawfulMonad.mk' (Outcome ε)
    (fun x ↦ by cases x <;> rfl)
    (fun _ _ ↦ rfl)
    (fun x _ _ ↦ by cases x <;> rfl)

@[simp] theorem ok_bind (a : α) (f : α → Outcome ε β) : Outcome.ok a >>= f = f a := rfl

def okOr (o : Option α) (e : ε) : Outcome ε α := o.elim (.err e) .ok

/-- An early return of `e` where `p` holds. -/
def refuse (p : Prop) [Decidable p] (e : ε) : Outcome ε Unit := if p then .err e else .ok ()

theorem err_ne_panic (e : ε) : (Outcome.err e : Outcome ε α) ≠ .panic := nofun

theorem bind_eq_ok {x : Outcome ε α} {f : α → Outcome ε β} {b : β} :
    x >>= f = .ok b ↔ ∃ a, x = .ok a ∧ f a = .ok b := by
  cases x with
  | ok a =>
    constructor
    · intro h
      exact ⟨a, rfl, h⟩
    · intro h
      obtain ⟨a, ⟨⟩, h⟩ := h
      exact h
  | err e => exact iff_of_false (fun h ↦ by cases h) (fun h ↦ by cases h.choose_spec.1)
  | panic => exact iff_of_false (fun h ↦ by cases h) (fun h ↦ by cases h.choose_spec.1)

theorem bind_congr_ok {x : Outcome ε α} {f g : α → Outcome ε β}
    (h : ∀ a, x = .ok a → f a = g a) : x >>= f = x >>= g := by
  cases x with
  | ok a => exact h a rfl
  | err e => rfl
  | panic => rfl

theorem bind_eq_panic_iff {x : Outcome ε α} {f : α → Outcome ε β} :
    x >>= f = .panic ↔ x = .panic ∨ ∃ a, x = .ok a ∧ f a = .panic := by
  cases x with
  | ok a =>
    constructor
    · intro h
      exact .inr ⟨a, rfl, h⟩
    · rintro (h | ⟨_, h, hf⟩)
      · cases h
      · cases h
        exact hf
  | err e => exact iff_of_false (fun h ↦ by cases h) (by rintro (h | ⟨_, h, _⟩) <;> cases h)
  | panic => exact iff_of_true rfl (.inl rfl)

theorem okOr_eq_ok {o : Option α} {e : ε} {a : α} : okOr o e = .ok a ↔ o = some a := by
  cases o with
  | none => exact iff_of_false (fun h ↦ by cases h) (fun h ↦ by cases h)
  | some b => exact ⟨fun h ↦ by cases h; rfl, fun h ↦ by cases h; rfl⟩

section Operators

/-- `usize` sums, differences and products of 64-bit targets: out of range is a panic. -/
def checked (n : ℕ) : Outcome ε ℕ := if n < 2 ^ 64 then .ok n else .panic

def plus (a b : ℕ) : Outcome ε ℕ := checked (a + b)

def minus (a b : ℕ) : Outcome ε ℕ := if b ≤ a then .ok (a - b) else .panic

def times (a b : ℕ) : Outcome ε ℕ := checked (a * b)

def checkedAdd (a b : ℕ) : Option ℕ := if a + b < 2 ^ 64 then some (a + b) else none

/-- `l.get(lo..hi)`. -/
def getRange (l : List α) (lo hi : ℕ) : Option (List α) :=
  if lo ≤ hi ∧ hi ≤ l.length then some ((l.drop lo).take (hi - lo)) else none

/-- `l[lo..hi]`. -/
def sliceRange (l : List α) (lo hi : ℕ) : Outcome ε (List α) :=
  (getRange l lo hi).elim .panic .ok

/-- `l[i]`. -/
def index (l : List α) (i : ℕ) : Outcome ε α := l[i]?.elim .panic .ok

end Operators

section Safety

variable {x : Outcome ε α} {f : α → Outcome ε β} {P : α → Prop} {Q : β → Prop}

/-- No panic, and `P` of the result where there is one. -/
def Ensures (x : Outcome ε α) (P : α → Prop) : Prop :=
  match x with
  | .ok a => P a
  | .err _ => True
  | .panic => False

/-- There is a result, and it satisfies `P`. -/
def Yields (x : Outcome ε α) (P : α → Prop) : Prop := ∃ a, x = .ok a ∧ P a

theorem ensures_pure {a : α} (h : P a) : Ensures (pure a : Outcome ε α) P := h

theorem Ensures.bind (hx : Ensures x P) (hf : ∀ a, P a → Ensures (f a) Q) :
    Ensures (x >>= f) Q := by
  cases x with
  | ok a => exact hf a hx
  | err e => exact trivial
  | panic => exact hx.elim

theorem Ensures.mono {P' : α → Prop} (hx : Ensures x P) (h : ∀ a, P a → P' a) : Ensures x P' := by
  cases x with
  | ok a => exact h a hx
  | err e => exact trivial
  | panic => exact hx.elim

theorem Ensures.ne_panic (hx : Ensures x P) : x ≠ .panic := by
  intro h
  rw [h] at hx
  exact hx

theorem ensures_of_ne_panic (hx : x ≠ .panic) : Ensures x (fun a ↦ x = .ok a) := by
  cases x with
  | ok a => exact rfl
  | err e => exact trivial
  | panic => exact absurd rfl hx

theorem ensures_okOr {o : Option α} {e : ε} : Ensures (okOr o e) (fun a ↦ o = some a) := by
  cases o with
  | none => exact trivial
  | some a => exact rfl

theorem ensures_refuse {p : Prop} [Decidable p] {e : ε} :
    Ensures (refuse p e) (fun _ ↦ ¬p) := by
  unfold refuse
  split
  · exact trivial
  · assumption

theorem yields_pure {a : α} (h : P a) : Yields (pure a : Outcome ε α) P := ⟨a, rfl, h⟩

theorem Yields.bind (hx : Yields x P) (hf : ∀ a, P a → Yields (f a) Q) : Yields (x >>= f) Q := by
  obtain ⟨a, rfl, ha⟩ := hx
  exact hf a ha

theorem Yields.mono {P' : α → Prop} (hx : Yields x P) (h : ∀ a, P a → P' a) : Yields x P' := by
  obtain ⟨a, rfl, ha⟩ := hx
  exact ⟨a, rfl, h a ha⟩

theorem Yields.ensures (hx : Yields x P) : Ensures x P := by
  obtain ⟨a, rfl, ha⟩ := hx
  exact ha

/-- Behind a step that succeeds, the panics are those of the rest. -/
theorem Yields.bind_panic_iff {p : Prop} (hx : Yields x P) (hf : ∀ a, P a → (f a = .panic ↔ p)) :
    x >>= f = .panic ↔ p := by
  obtain ⟨a, rfl, ha⟩ := hx
  exact hf a ha

theorem checked_eq_ok {m n : ℕ} : (checked m : Outcome ε ℕ) = .ok n ↔ m < 2 ^ 64 ∧ n = m := by
  unfold checked
  split
  · rename_i hlt
    constructor
    · intro h
      cases h
      exact ⟨hlt, rfl⟩
    · intro h
      rw [h.2]
  · rename_i hlt
    exact iff_of_false (fun h ↦ by cases h) (fun h ↦ hlt h.1)

theorem plus_eq_ok {a b n : ℕ} : (plus a b : Outcome ε ℕ) = .ok n ↔ a + b < 2 ^ 64 ∧ n = a + b :=
  checked_eq_ok

theorem times_eq_ok {a b n : ℕ} :
    (times a b : Outcome ε ℕ) = .ok n ↔ a * b < 2 ^ 64 ∧ n = a * b :=
  checked_eq_ok

theorem minus_eq_ok {a b n : ℕ} : (minus a b : Outcome ε ℕ) = .ok n ↔ b ≤ a ∧ n = a - b := by
  unfold minus
  split
  · rename_i hle
    constructor
    · intro h
      cases h
      exact ⟨hle, rfl⟩
    · intro h
      rw [h.2]
  · rename_i hle
    exact iff_of_false (fun h ↦ by cases h) (fun h ↦ hle h.1)

theorem refuse_eq_ok {p : Prop} [Decidable p] {e : ε} {u : Unit} : refuse p e = .ok u ↔ ¬p := by
  unfold refuse
  split
  · rename_i hp
    exact iff_of_false (fun h ↦ by cases h) (not_not.mpr hp)
  · rename_i hp
    exact iff_of_true rfl hp

theorem yields_checked {n : ℕ} (h : n < 2 ^ 64) : Yields (checked n : Outcome ε ℕ) (· = n) :=
  ⟨n, if_pos h, rfl⟩

theorem yields_plus {a b : ℕ} (h : a + b < 2 ^ 64) :
    Yields (plus a b : Outcome ε ℕ) (· = a + b) := yields_checked h

theorem ensures_plus {a b : ℕ} (h : a + b < 2 ^ 64) :
    Ensures (plus a b : Outcome ε ℕ) (· = a + b) := (yields_plus h).ensures

theorem yields_minus {a b : ℕ} (h : b ≤ a) : Yields (minus a b : Outcome ε ℕ) (· = a - b) :=
  ⟨a - b, if_pos h, rfl⟩

theorem yields_times {a b : ℕ} (h : a * b < 2 ^ 64) :
    Yields (times a b : Outcome ε ℕ) (· = a * b) := yields_checked h

theorem checkedAdd_eq_some {a b n : ℕ} (h : checkedAdd a b = some n) :
    n = a + b ∧ a + b < 2 ^ 64 := by
  unfold checkedAdd at h
  split at h
  · rename_i hlt
    exact ⟨(Option.some.inj h).symm, hlt⟩
  · cases h

theorem getRange_eq_some {l part : List α} {lo hi : ℕ} (h : getRange l lo hi = some part) :
    hi ≤ l.length ∧ lo + part.length = hi := by
  unfold getRange at h
  split at h
  · rename_i hrange
    cases h
    rw [List.length_take, List.length_drop]
    omega
  · cases h

theorem getRange_of_le {l : List α} {lo hi : ℕ} (hle : lo ≤ hi) (hin : hi ≤ l.length) :
    getRange l lo hi = some ((l.drop lo).take (hi - lo)) := if_pos ⟨hle, hin⟩

theorem sliceRange_eq_ok {l part : List α} {lo hi : ℕ}
    (h : (sliceRange l lo hi : Outcome ε (List α)) = .ok part) : getRange l lo hi = some part := by
  unfold sliceRange at h
  cases hrange : getRange l lo hi with
  | none =>
    rw [hrange] at h
    cases h
  | some a =>
    rw [hrange] at h
    cases h
    rfl

theorem index_eq_ok {l : List α} {i : ℕ} {a : α} (h : (index l i : Outcome ε α) = .ok a) :
    l[i]? = some a := by
  unfold index at h
  cases hget : l[i]? with
  | none =>
    rw [hget] at h
    cases h
  | some b =>
    rw [hget] at h
    cases h
    rfl

theorem yields_sliceRange {l : List α} {lo hi : ℕ} (hle : lo ≤ hi) (hin : hi ≤ l.length) :
    Yields (sliceRange l lo hi : Outcome ε (List α)) (fun part ↦ lo + part.length = hi) := by
  have hlength : lo + ((l.drop lo).take (hi - lo)).length = hi := by
    rw [List.length_take, List.length_drop]
    omega
  refine ⟨_, ?_, hlength⟩
  rw [sliceRange, getRange_of_le hle hin]
  rfl

theorem yields_index {l : List α} {i : ℕ} (h : i < l.length) :
    Yields (index l i : Outcome ε α) (fun _ ↦ True) := by
  refine ⟨l[i], ?_, trivial⟩
  rw [index, List.getElem?_eq_getElem h]
  rfl

/-- A loop keeps an invariant that each of its rounds keeps. -/
theorem ensures_foldlM {I : σ → Prop} {g : σ → ι → Outcome ε σ} {l : List ι} {s : σ} (hs : I s)
    (hstep : ∀ s, ∀ i ∈ l, I s → Ensures (g s i) I) : Ensures (l.foldlM g s) I := by
  induction l generalizing s with
  | nil => exact hs
  | cons i l ih =>
    rw [List.foldlM_cons]
    refine (hstep s i List.mem_cons_self hs).bind (fun s' hs' ↦ ih hs' (fun s j hj ↦ ?_))
    exact hstep s j (List.mem_cons_of_mem _ hj)

/-- The same, where the invariant also speaks of how far the loop is. -/
theorem ensures_foldlM_range {I : ℕ → σ → Prop} {g : σ → ℕ → Outcome ε σ} {n : ℕ} {s : σ}
    (hs : I 0 s) (hstep : ∀ s, ∀ i < n, I i s → Ensures (g s i) (I (i + 1))) :
    Ensures ((List.range n).foldlM g s) (I n) := by
  induction n with
  | zero => exact hs
  | succ n ih =>
    rw [List.range_succ, List.foldlM_append]
    refine (ih (fun s i hi ↦ hstep s i (Nat.lt_succ_of_lt hi))).bind (fun s hn ↦ ?_)
    rw [List.foldlM_cons]
    exact (hstep s n (Nat.lt_succ_self n) hn).bind (fun s hs ↦ ensures_pure hs)

theorem yields_foldlM {I : σ → Prop} {g : σ → ι → Outcome ε σ} {l : List ι} {s : σ} (hs : I s)
    (hstep : ∀ s, ∀ i ∈ l, I s → Yields (g s i) I) : Yields (l.foldlM g s) I := by
  induction l generalizing s with
  | nil => exact yields_pure hs
  | cons i l ih =>
    rw [List.foldlM_cons]
    refine (hstep s i List.mem_cons_self hs).bind (fun s' hs' ↦ ih hs' (fun s j hj ↦ ?_))
    exact hstep s j (List.mem_cons_of_mem _ hj)

/-- A loop whose rounds succeed but for the bad ones panics exactly when it comes to a bad one. -/
theorem foldlM_eq_panic_iff {g : σ → ι → Outcome ε σ} {bad : ι → Prop} {l : List ι}
    (hbad : ∀ s, ∀ i ∈ l, bad i → g s i = .panic)
    (hgood : ∀ s, ∀ i ∈ l, ¬bad i → Yields (g s i) (fun _ ↦ True)) (s : σ) :
    l.foldlM g s = .panic ↔ ∃ i ∈ l, bad i := by
  induction l generalizing s with
  | nil => exact iff_of_false (fun h ↦ by cases h) (by simp)
  | cons i l ih =>
    have hrest := ih (fun s j hj ↦ hbad s j (List.mem_cons_of_mem _ hj))
      (fun s j hj ↦ hgood s j (List.mem_cons_of_mem _ hj))
    rw [List.foldlM_cons, List.exists_mem_cons_iff]
    by_cases hi : bad i
    · rw [hbad s i List.mem_cons_self hi]
      exact iff_of_true rfl (.inl hi)
    · rw [or_iff_right hi]
      exact (hgood s i List.mem_cons_self hi).bind_panic_iff (fun s' _ ↦ hrest s')

end Safety

end Aldivine.Foundation.Checked
