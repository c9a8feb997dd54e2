import Aldivine.Foundation.Wire

namespace Aldivine.Foundation.Grammars

open Wire

/-- A grammar says which bytes stand for which things. -/
abbrev Grammar (γ : Type) := γ → List UInt8 → Prop

variable {ε α β γ δ : Type}

/-- Several things, one behind the other. -/
inductive Sequence (G : Grammar γ) : Grammar (List γ)
  | nil : Sequence G [] []
  | cons {x : γ} {xs : List γ} {bytes more : List UInt8} (h : G x bytes)
      (hxs : Sequence G xs more) : Sequence G (x :: xs) (bytes ++ more)

def Behind (W : Grammar β) (G : β → Grammar γ) : Grammar γ := fun x bytes ↦
  ∃ b head tail, W b head ∧ G b x tail ∧ bytes = head ++ tail

def Both (G : Grammar γ) (H : Grammar δ) : Grammar (γ × δ) := fun p bytes ↦
  ∃ first second, G p.1 first ∧ H p.2 second ∧ bytes = first ++ second

def Image (c : γ → δ) (G : Grammar γ) : Grammar δ := fun y bytes ↦ ∃ x, y = c x ∧ G x bytes

def Word (k : ℕ) : Grammar ℕ := fun n bytes ↦ n < 256 ^ k ∧ bytes = toBE k n

theorem sequence_cons {G : Grammar γ} {x : γ} {xs : List γ} {bytes : List UInt8} :
    Sequence G (x :: xs) bytes ↔
      ∃ first more, G x first ∧ Sequence G xs more ∧ bytes = first ++ more := by
  constructor
  · intro h
    cases h with
    | cons h hxs => exact ⟨_, _, h, hxs, rfl⟩
  · intro h
    obtain ⟨first, more, hx, hxs, rfl⟩ := h
    exact .cons hx hxs

theorem sequence_both {G : Grammar γ} {entries : List (γ × γ)} {bytes : List UInt8} :
    Sequence (Both G G) entries bytes ↔
      Sequence G (entries.flatMap (fun e ↦ [e.1, e.2])) bytes := by
  induction entries generalizing bytes with
  | nil =>
    constructor <;> intro h <;> cases h <;> exact .nil
  | cons e es ih =>
    rw [List.flatMap_cons, List.cons_append, List.cons_append, List.nil_append]
    constructor
    · intro h
      obtain ⟨pair, more, hpair, hes, rfl⟩ := sequence_cons.mp h
      obtain ⟨first, second, hfirst, hsecond, rfl⟩ := hpair
      rw [List.append_assoc]
      exact .cons hfirst (.cons hsecond (ih.mp hes))
    · intro h
      obtain ⟨first, rest, hfirst, hrest, rfl⟩ := sequence_cons.mp h
      obtain ⟨second, more, hsecond, hes, rfl⟩ := sequence_cons.mp hrest
      rw [← List.append_assoc]
      exact .cons ⟨first, second, hfirst, hsecond, rfl⟩ (ih.mpr hes)

section Gives

variable {r : Reader ε α} {f : α → Reader ε β} {bytes more : List UInt8}

/-- The reader takes exactly these bytes, or fails on them, whatever follows them. -/
def Gives (r : Reader ε α) (bytes : List UInt8) : Option α → Prop
  | some a => Parses r bytes a
  | none => ∃ e, ∀ rest, r.run (bytes ++ rest) = .error e

theorem bind_gives {a : α} {x : Option β} (h : Parses r bytes a)
    (hf : Gives (f a) more x) : Gives (r >>= f) (bytes ++ more) x := by
  have hrun : ∀ rest, (r >>= f).run (bytes ++ more ++ rest) = (f a).run (more ++ rest) := by
    intro rest
    rw [List.append_assoc]
    exact run_bind_ok (h (more ++ rest))
  cases x with
  | none =>
    obtain ⟨e, he⟩ := hf
    exact ⟨e, fun rest ↦ (hrun rest).trans (he rest)⟩
  | some b => exact fun rest ↦ (hrun rest).trans (hf rest)

theorem Gives.bind {x : Option α} {g : α → Option β} (h : Gives r bytes x)
    (hf : ∀ a, Gives (f a) more (g a)) : Gives (r >>= f) (bytes ++ more) (x.bind g) := by
  cases x with
  | none =>
    obtain ⟨e, he⟩ := h
    refine ⟨e, fun rest ↦ ?_⟩
    rw [List.append_assoc, StateT.run_bind, he]
    rfl
  | some a => exact bind_gives h (hf a)

theorem Gives.map {x : Option α} (h : Gives r bytes x) (g : α → β) :
    Gives (g <$> r) bytes (x.map g) := by
  cases x with
  | none =>
    obtain ⟨e, he⟩ := h
    refine ⟨e, fun rest ↦ ?_⟩
    rw [StateT.run_map, he]
    rfl
  | some a => exact Parses.map h g

theorem Gives.shift {r' : Reader ε α} {x : Option α} (h : Gives r' more x)
    (hshift : ∀ rest, r.run (bytes ++ rest) = r'.run rest) : Gives r (bytes ++ more) x := by
  cases x with
  | none =>
    obtain ⟨e, he⟩ := h
    refine ⟨e, fun rest ↦ ?_⟩
    rw [List.append_assoc, hshift]
    exact he rest
  | some a => exact Parses.shift h hshift

theorem Gives.of_run {x : Option α} {a : α} {rest c : List UInt8} (h : Gives r bytes x)
    (hrun : r.run (bytes ++ rest) = .ok (a, c)) : x = some a ∧ c = rest := by
  cases x with
  | none =>
    obtain ⟨e, he⟩ := h
    cases (he rest).symm.trans hrun
  | some b =>
    cases (h rest).symm.trans hrun
    exact ⟨rfl, rfl⟩

end Gives

/-- On at most `n` bytes the reader is one for the grammar: from the bytes of `x` it makes what
`f` says, and it takes nothing else. -/
structure Decodes (n : ℕ) (G : Grammar γ) (f : γ → Option α) (r : Reader ε α) : Prop where
  complete : ∀ x bytes, G x bytes → bytes.length ≤ n → Gives r bytes (f x)
  sound : ∀ c a c', c.length ≤ n → r.run c = .ok (a, c') → ∃ x bytes, G x bytes ∧ c = bytes ++ c'

namespace Decodes

variable {n : ℕ} {G : Grammar γ} {H : Grammar δ} {f : γ → Option α} {r : Reader ε α}

theorem congr {G' : Grammar γ} (h : Decodes n G f r) (hG : ∀ x bytes, G' x bytes ↔ G x bytes) :
    Decodes n G' f r := by
  refine ⟨fun x bytes hx ↦ h.complete x bytes ((hG x bytes).mp hx), fun c a c' hc heq ↦ ?_⟩
  obtain ⟨x, bytes, hx, hsplit⟩ := h.sound c a c' hc heq
  exact ⟨x, bytes, (hG x bytes).mpr hx, hsplit⟩

theorem congr_value {f' : γ → Option α} (h : Decodes n G f r)
    (hf : ∀ x bytes, G x bytes → f' x = f x) : Decodes n G f' r :=
  ⟨fun x bytes hx hle ↦ hf x bytes hx ▸ h.complete x bytes hx hle, h.sound⟩

theorem nothing (e : ε) (h : ∀ x bytes, ¬G x bytes) : Decodes n G f (throw e : Reader ε α) :=
  ⟨fun x bytes hx ↦ absurd hx (h x bytes), fun _ _ _ _ heq ↦ by cases heq⟩

theorem constant (x : γ) (a : α) (hf : f x = some a) :
    Decodes n (fun y bytes ↦ y = x ∧ bytes = []) f (pure a : Reader ε α) := by
  constructor
  · intro y bytes hy _
    obtain ⟨rfl, rfl⟩ := hy
    rw [hf]
    exact parses_pure a
  · intro c b c' _ heq
    cases heq
    exact ⟨x, [], ⟨rfl, rfl⟩, rfl⟩

theorem map (h : Decodes n G f r) (g : α → β) : Decodes n G (fun x ↦ (f x).map g) (g <$> r) := by
  constructor
  · exact fun x bytes hx hle ↦ (h.complete x bytes hx hle).map g
  · intro c b c' hc heq
    rw [← bind_pure_comp, run_bind_eq_ok] at heq
    obtain ⟨a, d, hr, hpure⟩ := heq
    obtain ⟨x, bytes, hx, hsplit⟩ := h.sound c a d hc hr
    cases hpure
    exact ⟨x, bytes, hx, hsplit⟩

theorem image {f' : δ → Option α} (h : Decodes n G f r) (c : γ → δ)
    (hf : ∀ x bytes, G x bytes → f' (c x) = f x) : Decodes n (Image c G) f' r := by
  constructor
  · intro y bytes hy hle
    obtain ⟨x, rfl, hx⟩ := hy
    rw [hf x bytes hx]
    exact h.complete x bytes hx hle
  · intro s a s' hs heq
    obtain ⟨x, bytes, hx, hsplit⟩ := h.sound s a s' hs heq
    exact ⟨c x, bytes, ⟨x, rfl, hx⟩, hsplit⟩

theorem takeBytes (e : ε) (k : ℕ) :
    Decodes n (fun taken bytes ↦ taken.length = k ∧ bytes = taken) some (takeBytes e k) := by
  constructor
  · intro taken bytes htaken _
    obtain ⟨hlen, rfl⟩ := htaken
    exact parses_takeBytes e hlen
  · intro c taken c' _ heq
    have hlen := length_of_takeBytes heq
    change Wire.takeBytes e k c = _ at heq
    unfold Wire.takeBytes at heq
    split at heq
    · cases heq
      exact ⟨_, _, ⟨hlen, rfl⟩, (List.take_append_drop k c).symm⟩
    · cases heq

theorem readByte (e : ε) : Decodes n (fun b bytes ↦ bytes = [b]) some (readByte e) := by
  constructor
  · intro b bytes hb _
    subst hb
    exact parses_readByte e b
  · intro c b c' _ heq
    cases c with
    | nil => cases heq
    | cons b c =>
      cases heq
      exact ⟨b, [b], rfl, rfl⟩

theorem readBE (e : ε) (k : ℕ) : Decodes n (Word k) some (readBE e k) := by
  constructor
  · intro m bytes hword _
    obtain ⟨hm, rfl⟩ := hword
    exact parses_readBE e hm
  · intro c m c' hc heq
    have hlt := readBE_lt heq
    obtain ⟨taken, d, hr, hpure⟩ := run_bind_eq_ok.mp heq
    obtain ⟨taken', bytes, ⟨hlen, rfl⟩, rfl⟩ := (takeBytes e k).sound c taken d hc hr
    have htaken : bytes = taken := by
      have hparse := parses_takeBytes e hlen d
      exact congrArg Prod.fst (Except.ok.inj (hparse.symm.trans hr))
    subst htaken
    cases hpure
    refine ⟨ofBE bytes, bytes, ⟨hlt, ?_⟩, rfl⟩
    rw [← hlen, toBE_ofBE]

theorem check {g : α → Reader ε β} {g' : α → Option β} (h : Decodes n G f r)
    (hg : ∀ a, Gives (g a) [] (g' a)) : Decodes n G (fun x ↦ (f x).bind g') (r >>= g) := by
  constructor
  · intro x bytes hx hle
    have hboth := (h.complete x bytes hx hle).bind hg
    rwa [List.append_nil] at hboth
  · intro c b c' hc heq
    obtain ⟨a, d, hr, hga⟩ := run_bind_eq_ok.mp heq
    obtain ⟨x, bytes, hx, hsplit⟩ := h.sound c a d hc hr
    have hrun : (g a).run ([] ++ d) = .ok (b, c') := hga
    obtain ⟨-, rfl⟩ := (hg a).of_run hrun
    exact ⟨x, bytes, hx, hsplit⟩

/-- What is read first only says how to go on. -/
theorem behind {W : Grammar β} {G : β → Grammar γ} {r : Reader ε β} {g : β → Reader ε α}
    (h : Decodes n W some r) (hg : ∀ b, Decodes n (G b) f (g b)) :
    Decodes n (Behind W G) f (r >>= g) := by
  constructor
  · intro x bytes hbehind hle
    obtain ⟨b, head, tail, hb, hx, rfl⟩ := hbehind
    rw [List.length_append] at hle
    have hhead : Parses r head b := h.complete b head hb (by omega)
    have htail : Gives (g b) tail (f x) := (hg b).complete x tail hx (by omega)
    exact bind_gives hhead htail
  · intro c a c' hc heq
    obtain ⟨b, d, hr, hgb⟩ := run_bind_eq_ok.mp heq
    obtain ⟨b', head, hb, rfl⟩ := h.sound c b d hc hr
    rw [List.length_append] at hc
    have hparse : Parses r head b' := h.complete b' head hb (by omega)
    obtain rfl : b' = b := congrArg Prod.fst (Except.ok.inj ((hparse d).symm.trans hr))
    obtain ⟨x, tail, hx, rfl⟩ := (hg b').sound d a c' (by omega) hgb
    exact ⟨x, head ++ tail, ⟨b', head, tail, hb, hx, rfl⟩, (List.append_assoc _ _ _).symm⟩

theorem both {g : δ → Option β} {r' : Reader ε β} (h : Decodes n G f r) (h' : Decodes n H g r') :
    Decodes n (Both G H) (fun p ↦ (f p.1).bind (fun a ↦ (g p.2).map (Prod.mk a)))
      (do return (← r, ← r')) := by
  constructor
  · intro p bytes hboth hle
    obtain ⟨first, second, hfirst, hsecond, rfl⟩ := hboth
    rw [List.length_append] at hle
    have hx := h.complete p.1 first hfirst (by omega)
    have hy := h'.complete p.2 second hsecond (by omega)
    exact hx.bind (fun a ↦ hy.map (Prod.mk a))
  · intro c pair c' hc heq
    obtain ⟨a, d, hr, hrest⟩ := run_bind_eq_ok.mp heq
    obtain ⟨b, d', hr', hpure⟩ := run_bind_eq_ok.mp hrest
    obtain ⟨x, first, hx, rfl⟩ := h.sound c a d hc hr
    rw [List.length_append] at hc
    obtain ⟨y, second, hy, rfl⟩ := h'.sound d b d' (by omega) hr'
    cases hpure
    exact ⟨(x, y), first ++ second, ⟨first, second, hx, hy, rfl⟩, (List.append_assoc _ _ _).symm⟩

theorem mapM_cons (x : γ) (xs : List γ) :
    (x :: xs).mapM f = (f x).bind (fun a ↦ (xs.mapM f).map (List.cons a)) := by
  rw [List.mapM_cons]
  congr 1
  funext a
  exact (Option.map_eq_bind).symm

theorem sequence (h : Decodes n G f r) (k : ℕ) :
    Decodes n (fun xs bytes ↦ xs.length = k ∧ Sequence G xs bytes) (List.mapM f)
      (repeatRead r k) := by
  induction k with
  | zero =>
    constructor
    · intro xs bytes hall _
      obtain ⟨hlen, hxs⟩ := hall
      obtain rfl := List.length_eq_zero_iff.mp hlen
      cases hxs
      exact parses_pure []
    · intro c l c' _ heq
      cases heq
      exact ⟨[], [], ⟨rfl, .nil⟩, rfl⟩
  | succ k ih =>
    constructor
    · intro xs bytes hall hle
      obtain ⟨hlen, hxs⟩ := hall
      cases hxs with
      | nil => cases hlen
      | cons hx hxs =>
        rw [List.length_append] at hle
        have hfirst := h.complete _ _ hx (by omega)
        have hmore := ih.complete _ _ ⟨Nat.succ.inj hlen, hxs⟩ (by omega)
        rw [mapM_cons]
        exact hfirst.bind (fun a ↦ hmore.map (List.cons a))
    · intro c l c' hc heq
      obtain ⟨a, d, hr, hrest⟩ := run_bind_eq_ok.mp heq
      obtain ⟨l', d', hl, hpure⟩ := run_bind_eq_ok.mp hrest
      obtain ⟨x, first, hx, rfl⟩ := h.sound c a d hc hr
      rw [List.length_append] at hc
      obtain ⟨xs, more, hxs, rfl⟩ := ih.sound d l' d' (by omega) hl
      cases hpure
      exact ⟨x :: xs, first ++ more, ⟨congrArg Nat.succ hxs.1, .cons hx hxs.2⟩,
        (List.append_assoc _ _ _).symm⟩

/-- A first byte decides what is read behind it, with the reader itself for what is nested. -/
theorem tagged {G : Grammar γ} {body : UInt8 → Reader ε α} {H : UInt8 → Grammar γ}
    (hnil : ∀ x, ¬G x []) (hcons : ∀ x tag bytes, G x (tag :: bytes) ↔ H tag x bytes)
    (hend : ∃ e, r.run [] = .error e) (hstep : ∀ tag c, r.run (tag :: c) = (body tag).run c)
    (hbody : ∀ n, Decodes n G f r → ∀ tag, Decodes n (H tag) f (body tag)) (n : ℕ) :
    Decodes n G f r := by
  induction n with
  | zero =>
    constructor
    · intro x bytes hx hle
      obtain rfl := List.length_eq_zero_iff.mp (Nat.le_zero.mp hle)
      exact absurd hx (hnil x)
    · intro c a c' hc heq
      obtain rfl := List.length_eq_zero_iff.mp (Nat.le_zero.mp hc)
      obtain ⟨e, he⟩ := hend
      cases he.symm.trans heq
  | succ n ih =>
    constructor
    · intro x bytes hx hle
      cases bytes with
      | nil => exact absurd hx (hnil x)
      | cons tag bytes =>
        have hgives := (hbody n ih tag).complete x bytes ((hcons x tag bytes).mp hx)
          (Nat.le_of_succ_le_succ hle)
        have hshift : ∀ rest, r.run ([tag] ++ rest) = (body tag).run rest := hstep tag
        exact hgives.shift hshift
    · intro c a c' hc heq
      cases c with
      | nil =>
        obtain ⟨e, he⟩ := hend
        cases he.symm.trans heq
      | cons tag c =>
        rw [hstep] at heq
        obtain ⟨x, bytes, hx, rfl⟩ := (hbody n ih tag).sound c a c' (Nat.le_of_succ_le_succ hc) heq
        exact ⟨x, tag :: bytes, (hcons x tag bytes).mpr hx, rfl⟩

end Decodes

section Whole

variable {G : Grammar γ} {f : γ → Option α} {r : Reader ε α}

/-- A proper prefix of something of the grammar is taken for nothing. -/
theorem fails_on_front (h : ∀ n, Decodes n G f r) {x : γ} {bytes more : List UInt8}
    (hx : G x (bytes ++ more)) (hmore : more ≠ []) : ∃ e, r.run bytes = .error e := by
  cases hrun : r.run bytes with
  | error e => exact ⟨e, rfl⟩
  | ok result =>
    obtain ⟨a, c⟩ := result
    obtain ⟨y, taken, hy, rfl⟩ := (h _).sound bytes a c le_rfl hrun
    have hwhole := (h _).complete x _ hx le_rfl
    have htaken := (h _).complete y taken hy le_rfl
    obtain ⟨hfy, -⟩ := htaken.of_run hrun
    rw [hfy] at htaken
    have hlonger : r.run (taken ++ c ++ more ++ []) = .ok (a, c ++ more) := by
      rw [List.append_nil, List.append_assoc]
      exact htaken (c ++ more)
    obtain ⟨-, hnil⟩ := hwhole.of_run hlonger
    exact absurd (List.append_eq_nil_iff.mp hnil).2 hmore

/-- Bytes that start with nothing of the grammar are taken for nothing. -/
theorem fails_outside (h : ∀ n, Decodes n G f r) {bytes : List UInt8}
    (hout : ∀ x taken rest, G x taken → bytes ≠ taken ++ rest) : ∃ e, r.run bytes = .error e := by
  cases hrun : r.run bytes with
  | error e => exact ⟨e, rfl⟩
  | ok result =>
    obtain ⟨x, taken, hx, hsplit⟩ := (h _).sound bytes result.1 result.2 le_rfl hrun
    exact absurd hsplit (hout x taken result.2 hx)

end Whole

end Aldivine.Foundation.Grammars
