import Mathlib.Data.Prod.Basic
import Mathlib.Data.List.Basic
import Mathlib.Tactic.Ring

namespace Aldivine.Foundation.Wire

/-- The `k` low bytes of `n`, the most significant one first. -/
def toBE : ℕ → ℕ → List UInt8
  | 0, _ => []
  | k + 1, n => UInt8.ofNat (n / 256 ^ k) :: toBE k n

def ofBE : List UInt8 → ℕ
  | [] => 0
  | b :: bytes => b.toNat * 256 ^ bytes.length + ofBE bytes

@[simp] theorem length_toBE (k n : ℕ) : (toBE k n).length = k := by
  induction k with
  | zero => rfl
  | succ k ih => rw [toBE, List.length_cons, ih]

theorem ofBE_toBE (k n : ℕ) : ofBE (toBE k n) = n % 256 ^ k := by
  induction k with
  | zero => simp [toBE, ofBE, Nat.mod_one]
  | succ k ih =>
    have hbyte : (UInt8.ofNat (n / 256 ^ k)).toNat = n / 256 ^ k % 256 := UInt8.toNat_ofNat'
    rw [toBE, ofBE, length_toBE, ih, hbyte, Nat.mod_pow_succ]
    ring

theorem ofBE_toBE_of_lt {k n : ℕ} (h : n < 256 ^ k) : ofBE (toBE k n) = n := by
  rw [ofBE_toBE, Nat.mod_eq_of_lt h]

theorem toBE_add (j k n : ℕ) : toBE (j + k) n = toBE j (n / 256 ^ k) ++ toBE k n := by
  induction j with
  | zero => simp [toBE]
  | succ j ih =>
    have hdiv : n / 256 ^ (j + k) = n / 256 ^ k / 256 ^ j := by
      rw [Nat.div_div_eq_div_mul, ← pow_add, Nat.add_comm]
    rw [Nat.succ_add, toBE, toBE, ih, hdiv, List.cons_append]

theorem ofBE_lt (bytes : List UInt8) : ofBE bytes < 256 ^ bytes.length := by
  induction bytes with
  | nil => exact Nat.one_pos
  | cons b bytes ih =>
    have hb : b.toNat + 1 ≤ 256 := b.toNat_lt
    have hmul := Nat.mul_le_mul_right (256 ^ bytes.length) hb
    rw [Nat.add_mul, Nat.one_mul] at hmul
    rw [ofBE, List.length_cons, Nat.pow_succ']
    omega

theorem toBE_congr {k n m : ℕ} (h : n % 256 ^ k = m % 256 ^ k) : toBE k n = toBE k m := by
  induction k with
  | zero => rfl
  | succ k ih =>
    have hlow : n % 256 ^ k = m % 256 ^ k := by
      have hdvd : 256 ^ k ∣ 256 ^ (k + 1) := Nat.pow_dvd_pow 256 (Nat.le_succ k)
      rw [← Nat.mod_mod_of_dvd n hdvd, h, Nat.mod_mod_of_dvd m hdvd]
    have hhigh : n / 256 ^ k % 256 = m / 256 ^ k % 256 := by
      rw [Nat.pow_succ] at h
      rw [← Nat.mod_mul_right_div_self, ← Nat.mod_mul_right_div_self, h]
    rw [toBE, toBE, ih hlow]
    congr 1
    apply UInt8.toNat_inj.mp
    rw [UInt8.toNat_ofNat', UInt8.toNat_ofNat']
    exact hhigh

theorem toBE_ofBE (bytes : List UInt8) : toBE bytes.length (ofBE bytes) = bytes := by
  induction bytes with
  | nil => rfl
  | cons b bytes ih =>
    have hlow : (b.toNat * 256 ^ bytes.length + ofBE bytes) % 256 ^ bytes.length =
        ofBE bytes % 256 ^ bytes.length := Nat.mul_add_mod_self_right _ _ _
    have hhigh : (b.toNat * 256 ^ bytes.length + ofBE bytes) / 256 ^ bytes.length = b.toNat := by
      rw [Nat.mul_comm, Nat.mul_add_div (Nat.pow_pos (by decide)), Nat.div_eq_of_lt (ofBE_lt bytes),
        Nat.add_zero]
    rw [List.length_cons, toBE, ofBE, toBE_congr hlow, ih, hhigh, UInt8.ofNat_toNat]

section LittleEndian

/-- `to_le_bytes`: the `k` low bytes of `n`, the least significant one first. -/
def toLE (k n : ℕ) : List UInt8 := (toBE k n).reverse

def ofLE (bytes : List UInt8) : ℕ := ofBE bytes.reverse

@[simp] theorem length_toLE (k n : ℕ) : (toLE k n).length = k := by
  rw [toLE, List.length_reverse, length_toBE]

theorem ofLE_toLE_of_lt {k n : ℕ} (h : n < 256 ^ k) : ofLE (toLE k n) = n := by
  rw [ofLE, toLE, List.reverse_reverse, ofBE_toBE_of_lt h]

theorem ofLE_lt (bytes : List UInt8) : ofLE bytes < 256 ^ bytes.length := by
  rw [← List.length_reverse]
  exact ofBE_lt bytes.reverse

theorem toLE_ofLE {bytes : List UInt8} {k : ℕ} (h : bytes.length = k) :
    toLE k (ofLE bytes) = bytes := by
  subst h
  rw [toLE, ofLE, ← List.length_reverse, toBE_ofBE, List.reverse_reverse]

end LittleEndian

section Slices

/-- `bytes[i..i + n]`. -/
def slice (bytes : List UInt8) (i n : ℕ) : List UInt8 := (bytes.drop i).take n

variable {a b c bytes : List UInt8} {i n : ℕ}

theorem slice_middle (ha : a.length = i) (hb : b.length = n) : slice (a ++ (b ++ c)) i n = b := by
  rw [slice, List.drop_left' ha, List.take_left' hb]

theorem slice_front (ha : a.length = n) : slice (a ++ bytes) 0 n = a :=
  List.take_left' ha

theorem slice_skip (ha : a.length ≤ i) : slice (a ++ bytes) i n = slice bytes (i - a.length) n := by
  rw [slice, slice, List.drop_append, List.drop_eq_nil_of_le ha, List.nil_append]

theorem slice_cons_zero (b : UInt8) : slice (b :: bytes) 0 1 = [b] := rfl

theorem slice_cons_pos (b : UInt8) (hi : 0 < i) : slice (b :: bytes) i n = slice bytes (i - 1) n :=
  slice_skip (a := [b]) hi

theorem length_slice (h : i + n ≤ bytes.length) : (slice bytes i n).length = n := by
  rw [slice, List.length_take, List.length_drop]
  omega

theorem slice_append_slice (bytes : List UInt8) (i n m : ℕ) :
    slice bytes i n ++ slice bytes (i + n) m = slice bytes i (n + m) := by
  rw [slice, slice, slice, List.take_add, List.drop_drop]

theorem slice_one (h : i < bytes.length) (d : UInt8) : slice bytes i 1 = [bytes.getD i d] := by
  rw [slice, List.drop_eq_getElem_cons h, List.take_succ_cons, List.take_zero,
    List.getD_eq_getElem?_getD, List.getElem?_eq_getElem h, Option.getD_some]

theorem slice_all (h : bytes.length ≤ n) : slice bytes 0 n = bytes := by
  rw [slice, List.drop_zero, List.take_of_length_le h]

end Slices

/-- A reader takes its value from the front of the remaining bytes, or fails. -/
abbrev Reader (ε α : Type) := StateT (List UInt8) (Except ε) α

variable {ε α β : Type}

def readByte (e : ε) : Reader ε UInt8
  | [] => .error e
  | b :: c => .ok (b, c)

/-- The next byte, which stays unread. -/
def peekByte (e : ε) : Reader ε UInt8
  | [] => .error e
  | b :: c => .ok (b, b :: c)

def takeBytes (e : ε) (n : ℕ) : Reader ε (List UInt8) := fun c ↦
  if n ≤ c.length then .ok (c.take n, c.drop n) else .error e

def readBE (e : ε) (k : ℕ) : Reader ε ℕ := do
  return ofBE (← takeBytes e k)

def repeatRead (r : Reader ε α) : ℕ → Reader ε (List α)
  | 0 => return []
  | n + 1 => do
    let a ← r
    let l ← repeatRead r n
    return a :: l

/-- The reader takes exactly these bytes for `a`, whatever follows them. -/
def Parses (r : Reader ε α) (bytes : List UInt8) (a : α) : Prop :=
  ∀ rest, r.run (bytes ++ rest) = .ok (a, rest)

/-- The reader does not take `a` from anything that starts with these bytes. -/
def Misses (r : Reader ε α) (bytes : List UInt8) (a : α) : Prop :=
  ∀ rest rest', r.run (bytes ++ rest) ≠ .ok (a, rest')

section Parses

variable {r : Reader ε α} {f : α → Reader ε β} {bytes more : List UInt8} {a : α} {b : β}

theorem run_bind_ok {c c' : List UInt8} (h : r.run c = .ok (a, c')) :
    (r >>= f).run c = (f a).run c' := by
  rw [StateT.run_bind, h]
  rfl

theorem run_bind_eq_ok {c c' : List UInt8} :
    (r >>= f).run c = .ok (b, c') ↔ ∃ a d, r.run c = .ok (a, d) ∧ (f a).run d = .ok (b, c') := by
  rw [StateT.run_bind]
  cases h : r.run c with
  | error e => simp [bind, Except.bind]
  | ok x =>
    obtain ⟨a, d⟩ := x
    simp [bind, Except.bind]

theorem parses_pure (a : α) : Parses (pure a : Reader ε α) [] a := fun _ ↦ rfl

theorem Parses.bind (h : Parses r bytes a) (hf : Parses (f a) more b) :
    Parses (r >>= f) (bytes ++ more) b := by
  intro rest
  rw [List.append_assoc, run_bind_ok (h (more ++ rest)), hf rest]

/-- A reader that goes on as `r'` behind some bytes takes what `r'` takes there. -/
theorem Parses.shift {r' : Reader ε α} (h : Parses r' more a)
    (hshift : ∀ rest, r.run (bytes ++ rest) = r'.run rest) : Parses r (bytes ++ more) a := by
  intro rest
  rw [List.append_assoc, hshift]
  exact h rest

theorem Parses.map (h : Parses r bytes a) (g : α → β) : Parses (g <$> r) bytes (g a) := by
  intro rest
  rw [StateT.run_map, h rest]
  rfl

theorem parses_readByte (e : ε) (b : UInt8) : Parses (readByte e) [b] b := fun _ ↦ rfl

theorem parses_takeBytes (e : ε) {n : ℕ} (h : bytes.length = n) :
    Parses (takeBytes e n) bytes bytes := by
  intro rest
  subst h
  simp [takeBytes, StateT.run]

theorem parses_readBE (e : ε) {k n : ℕ} (h : n < 256 ^ k) : Parses (readBE e k) (toBE k n) n := by
  have hread := (parses_takeBytes e (length_toBE k n)).map ofBE
  rwa [ofBE_toBE_of_lt h] at hread

theorem length_of_takeBytes {e : ε} {k : ℕ} {c c' : List UInt8}
    (h : (takeBytes e k).run c = .ok (bytes, c')) : bytes.length = k := by
  change takeBytes e k c = _ at h
  unfold takeBytes at h
  split at h
  · rename_i hle
    cases h
    exact List.length_take_of_le hle
  · cases h

theorem readBE_lt {e : ε} {k n : ℕ} {c c' : List UInt8} (h : (readBE e k).run c = .ok (n, c')) :
    n < 256 ^ k := by
  obtain ⟨taken, d, htake, hpure⟩ := run_bind_eq_ok.mp h
  have hn : ofBE taken = n := congrArg Prod.fst (Except.ok.inj hpure)
  rw [← hn, ← length_of_takeBytes htake]
  exact ofBE_lt taken

theorem length_of_repeatRead {n : ℕ} {c c' : List UInt8} {l : List α}
    (h : (repeatRead r n).run c = .ok (l, c')) : l.length = n := by
  induction n generalizing c c' l with
  | zero =>
    cases h
    rfl
  | succ n ih =>
    obtain ⟨a, d, -, h⟩ := run_bind_eq_ok.mp h
    obtain ⟨l', d', hl, hpure⟩ := run_bind_eq_ok.mp h
    cases hpure
    rw [List.length_cons, ih hl]

theorem forall_of_repeatRead {p : α → Prop} (hr : ∀ c a c', r.run c = .ok (a, c') → p a) {n : ℕ}
    {c c' : List UInt8} {l : List α} (h : (repeatRead r n).run c = .ok (l, c')) :
    ∀ a ∈ l, p a := by
  induction n generalizing c c' l with
  | zero =>
    cases h
    simp
  | succ n ih =>
    obtain ⟨a, d, ha, h⟩ := run_bind_eq_ok.mp h
    obtain ⟨l', d', hl, hpure⟩ := run_bind_eq_ok.mp h
    cases hpure
    exact List.forall_mem_cons.mpr ⟨hr c a d ha, ih hl⟩

theorem Parses.misses (h : Parses r bytes a) {a' : α} (hne : a ≠ a') : Misses r bytes a' := by
  intro rest rest' heq
  rw [h rest] at heq
  exact hne (congrArg Prod.fst (Except.ok.inj heq))

theorem Misses.append (h : Misses r bytes a) (more : List UInt8) : Misses r (bytes ++ more) a := by
  intro rest rest' heq
  rw [List.append_assoc] at heq
  exact h _ _ heq

/-- What comes after the first value cannot make up for missing it. -/
theorem Misses.bind (h : Misses r bytes a)
    (hf : ∀ a' c c', (f a').run c = .ok (b, c') → a' = a) :
    Misses (r >>= f) (bytes ++ more) b := by
  intro rest rest' heq
  rw [List.append_assoc] at heq
  obtain ⟨a', d, hr, hfa⟩ := run_bind_eq_ok.mp heq
  exact h _ d (hf a' d rest' hfa ▸ hr)

theorem misses_bind (h : ∀ a, Misses r bytes a) : Misses (r >>= f) (bytes ++ more) b := by
  intro rest rest' heq
  rw [List.append_assoc] at heq
  obtain ⟨a', d, hr, -⟩ := run_bind_eq_ok.mp heq
  exact h a' _ d hr

theorem misses_throw (e : ε) : Misses ((throw e : Reader ε α) >>= f) bytes b :=
  fun _ _ heq ↦ by cases heq

theorem Parses.bind_misses (h : Parses r bytes a) (hf : Misses (f a) more b) :
    Misses (r >>= f) (bytes ++ more) b := by
  intro rest rest' heq
  rw [List.append_assoc, run_bind_ok (h (more ++ rest))] at heq
  exact hf rest rest' heq

theorem Misses.map (h : Misses r bytes a) {g : α → β} (hg : g.Injective) :
    Misses (g <$> r) bytes (g a) := by
  intro rest rest' heq
  rw [← bind_pure_comp, run_bind_eq_ok] at heq
  obtain ⟨a', d, hr, hpure⟩ := heq
  have hg' : g a' = g a := congrArg Prod.fst (Except.ok.inj hpure)
  exact h rest d (hg hg' ▸ hr)

/-- The reader takes these bytes for `a` if `good` holds, and cannot take them for `a` otherwise. -/
def Reads (good : Prop) (r : Reader ε α) (bytes : List UInt8) (a : α) : Prop :=
  (good → Parses r bytes a) ∧ (¬good → Misses r bytes a)

variable {good good' : Prop}

theorem Parses.reads (h : Parses r bytes a) (hgood : good) : Reads good r bytes a :=
  ⟨fun _ ↦ h, fun hbad ↦ absurd hgood hbad⟩

theorem Misses.reads (h : Misses r bytes a) (hbad : ¬good) : Reads good r bytes a :=
  ⟨fun hgood ↦ absurd hgood hbad, fun _ ↦ h⟩

theorem Reads.congr (h : Reads good r bytes a) (hgood : good' ↔ good) : Reads good' r bytes a := by
  rwa [Reads, hgood]

theorem Reads.shift {r' : Reader ε α} (h : Reads good r' more a)
    (hshift : ∀ rest, r.run (bytes ++ rest) = r'.run rest) : Reads good r (bytes ++ more) a := by
  refine ⟨fun hgood ↦ (h.1 hgood).shift hshift, fun hbad rest rest' heq ↦ ?_⟩
  rw [List.append_assoc, hshift] at heq
  exact h.2 hbad rest rest' heq

theorem Reads.map (h : Reads good r bytes a) {g : α → β} (hg : g.Injective) :
    Reads good (g <$> r) bytes (g a) :=
  ⟨fun hgood ↦ (h.1 hgood).map g, fun hbad ↦ (h.2 hbad).map hg⟩

theorem Parses.bind_reads (h : Parses r bytes a) (hf : Reads good (f a) more b) :
    Reads good (r >>= f) (bytes ++ more) b :=
  ⟨fun hgood ↦ h.bind (hf.1 hgood), fun hbad ↦ h.bind_misses (hf.2 hbad)⟩

/-- Two values in a row are read when both are; the result has to show what was read first. -/
theorem Reads.bind (h : Reads good r bytes a) (hf : Reads good' (f a) more b)
    (hinj : ∀ a' c c', (f a').run c = .ok (b, c') → a' = a) :
    Reads (good ∧ good') (r >>= f) (bytes ++ more) b := by
  refine ⟨fun hboth ↦ (h.1 hboth.1).bind (hf.1 hboth.2), fun hnot ↦ ?_⟩
  by_cases hgood : good
  · exact (h.1 hgood).bind_misses (hf.2 (fun hgood' ↦ hnot ⟨hgood, hgood'⟩))
  · exact (h.2 hgood).bind hinj

theorem Reads.cons {n : ℕ} {l : List α} (h : Reads good r bytes a)
    (hl : Reads good' (repeatRead r n) more l) :
    Reads (good ∧ good') (repeatRead r (n + 1)) (bytes ++ more) (a :: l) := by
  refine h.bind (hl.map List.cons_injective) ?_
  intro a' c c' heq
  obtain ⟨l', d, -, hpure⟩ := run_bind_eq_ok.mp heq
  have hcons : a' :: l' = a :: l := congrArg Prod.fst (Except.ok.inj hpure)
  exact (List.cons.inj hcons).1

theorem Reads.pair {a' : α} (h : Reads good r bytes a) (h' : Reads good' r more a') :
    Reads (good ∧ good') (do return (← r, ← r)) (bytes ++ more) (a, a') := by
  refine h.bind (h'.map (Prod.mk_right_injective a)) ?_
  intro x c c' heq
  obtain ⟨y, d, -, hpure⟩ := run_bind_eq_ok.mp heq
  have hpair : (x, y) = (a, a') := congrArg Prod.fst (Except.ok.inj hpure)
  exact (Prod.mk.inj hpair).1

end Parses

/-- On at most `n` remaining bytes the two readers do the same, and never give bytes back. -/
def Agree (n : ℕ) (r r' : Reader ε α) : Prop :=
  ∀ c : List UInt8, c.length ≤ n → r.run c = r'.run c ∧
    ∀ a c', r.run c = .ok (a, c') → c'.length ≤ c.length

section Agree

variable {n : ℕ} {r r' : Reader ε α} {f f' : α → Reader ε β}

theorem agree_pure (a : α) : Agree n (pure a : Reader ε α) (pure a) := by
  intro c _
  refine ⟨rfl, fun b c' heq ↦ ?_⟩
  cases heq
  exact le_rfl

theorem agree_throw (e : ε) : Agree n (throw e : Reader ε α) (throw e) := by
  intro c _
  refine ⟨rfl, fun b c' heq ↦ ?_⟩
  cases heq

theorem agree_readByte (e : ε) : Agree n (readByte e) (readByte e) := by
  intro c _
  refine ⟨rfl, fun b c' heq ↦ ?_⟩
  cases c with
  | nil => cases heq
  | cons b c =>
    cases heq
    exact Nat.le_succ _

theorem agree_peekByte (e : ε) : Agree n (peekByte e) (peekByte e) := by
  intro c _
  refine ⟨rfl, fun b c' heq ↦ ?_⟩
  cases c with
  | nil => cases heq
  | cons b c =>
    cases heq
    exact le_rfl

theorem agree_takeBytes (e : ε) (k : ℕ) : Agree n (takeBytes e k) (takeBytes e k) := by
  intro c _
  refine ⟨rfl, fun b c' heq ↦ ?_⟩
  simp only [takeBytes, StateT.run] at heq
  split at heq
  · cases heq
    simp
  · cases heq

theorem Agree.bind (h : Agree n r r') (hf : ∀ a, Agree n (f a) (f' a)) :
    Agree n (r >>= f) (r' >>= f') := by
  intro c hc
  obtain ⟨heq, hle⟩ := h c hc
  rw [StateT.run_bind, StateT.run_bind, ← heq]
  cases hr : r.run c with
  | error e => exact ⟨rfl, fun b c' hb ↦ by cases hb⟩
  | ok x =>
    have hx := hle x.1 x.2 hr
    obtain ⟨heq', hle'⟩ := hf x.1 x.2 (hx.trans hc)
    exact ⟨heq', fun b c' hb ↦ (hle' b c' hb).trans hx⟩

theorem Agree.map (h : Agree n r r') (g : α → β) : Agree n (g <$> r) (g <$> r') := by
  rw [← bind_pure_comp, ← bind_pure_comp]
  exact h.bind (fun a ↦ agree_pure (g a))

theorem Agree.repeat (h : Agree n r r') (k : ℕ) : Agree n (repeatRead r k) (repeatRead r' k) := by
  induction k with
  | zero => exact agree_pure []
  | succ k ih => exact h.bind (fun a ↦ ih.map (a :: ·))

theorem agree_readBE (e : ε) (k : ℕ) : Agree n (readBE e k) (readBE e k) :=
  (agree_takeBytes e k).map ofBE

end Agree

section Nested

variable {e : ε} {body : Reader ε α → UInt8 → Reader ε α}

/-- A recursive reader: a tag, and then what belongs to it, read with the reader itself. -/
def nestedAt (e : ε) (body : Reader ε α → UInt8 → Reader ε α) : ℕ → Reader ε α
  | 0 => throw e
  | depth + 1 => do body (nestedAt e body depth) (← readByte e)

/-- Every level takes a byte, so that the depth is never reached. -/
def nested (e : ε) (body : Reader ε α → UInt8 → Reader ε α) : Reader ε α :=
  fun c ↦ (nestedAt e body (c.length + 1)).run c

variable {level : ℕ → Reader ε α}

/-- A depth beyond the number of remaining bytes makes no difference, whatever the reader does at
depth 0. -/
theorem agree_levels (hbody : ∀ n r r' tag, Agree n r r' → Agree n (body r tag) (body r' tag))
    (hlevel : ∀ depth, level (depth + 1) = do body (level depth) (← readByte e))
    (n : ℕ) {j k : ℕ} (hj : n < j) (hk : n < k) : Agree n (level j) (level k) := by
  induction n generalizing j k with
  | zero =>
    obtain ⟨j, rfl⟩ := Nat.exists_eq_succ_of_ne_zero hj.ne'
    obtain ⟨k, rfl⟩ := Nat.exists_eq_succ_of_ne_zero hk.ne'
    rw [hlevel, hlevel]
    intro c hc
    obtain rfl := List.length_eq_zero_iff.mp (Nat.le_zero.mp hc)
    exact ⟨rfl, fun a c' heq ↦ by cases heq⟩
  | succ n ih =>
    obtain ⟨j, rfl⟩ := Nat.exists_eq_succ_of_ne_zero (Nat.ne_zero_of_lt hj)
    obtain ⟨k, rfl⟩ := Nat.exists_eq_succ_of_ne_zero (Nat.ne_zero_of_lt hk)
    rw [hlevel, hlevel]
    intro c hc
    cases c with
    | nil => exact ⟨rfl, fun a c' heq ↦ by cases heq⟩
    | cons tag c =>
      have hsub : Agree n (level j) (level k) := ih (by omega) (by omega)
      obtain ⟨heq, hle⟩ := hbody n _ _ tag hsub c (by simpa using hc)
      exact ⟨heq, fun a c' hr ↦ (hle a c' hr).trans (Nat.le_succ _)⟩

theorem levels_cons (hbody : ∀ n r r' tag, Agree n r r' → Agree n (body r tag) (body r' tag))
    (hlevel : ∀ depth, level (depth + 1) = do body (level depth) (← readByte e))
    (tag : UInt8) (c : List UInt8) :
    (level ((tag :: c).length + 1)).run (tag :: c) =
      (body (fun d ↦ (level (d.length + 1)).run d) tag).run c := by
  have hagree : Agree c.length (level (c.length + 1)) (fun d ↦ (level (d.length + 1)).run d) := by
    intro d hd
    have hdepth := agree_levels hbody hlevel
    obtain ⟨heq, -⟩ := hdepth d.length (Nat.lt_succ_of_le hd) (Nat.lt_succ_self _) d le_rfl
    exact ⟨heq, (hdepth c.length (Nat.lt_succ_self _) (Nat.lt_succ_self _) d hd).2⟩
  rw [List.length_cons, hlevel]
  exact (hbody c.length _ _ tag hagree c le_rfl).1

theorem nested_cons (hbody : ∀ n r r' tag, Agree n r r' → Agree n (body r tag) (body r' tag))
    (tag : UInt8) (c : List UInt8) :
    (nested e body).run (tag :: c) = (body (nested e body) tag).run c := by
  have hlevel (depth : ℕ) :
      nestedAt e body (depth + 1) = (do body (nestedAt e body depth) (← readByte e)) := rfl
  exact levels_cons hbody hlevel tag c

end Nested

/-- The reader does not look past what it takes: bytes added at the end stay unread and change
nothing. -/
def Local (r : Reader ε α) : Prop :=
  ∀ c a c', r.run c = .ok (a, c') → ∀ more, r.run (c ++ more) = .ok (a, c' ++ more)

section Local

variable {r : Reader ε α} {f : α → Reader ε β}

theorem local_pure (a : α) : Local (pure a : Reader ε α) := by
  intro c b c' heq more
  cases heq
  rfl

theorem local_throw (e : ε) : Local (throw e : Reader ε α) := by
  intro c b c' heq
  cases heq

theorem local_throw_bind (e : ε) : Local ((throw e : Reader ε α) >>= f) := by
  intro c b c' heq
  cases heq

theorem local_takeBytes (e : ε) (n : ℕ) : Local (takeBytes e n) := by
  intro c a c' heq more
  simp only [takeBytes, StateT.run] at heq ⊢
  split at heq
  · rename_i hn
    cases heq
    rw [if_pos (by rw [List.length_append]; omega), List.take_append_of_le_length hn,
      List.drop_append_of_le_length hn]
  · cases heq

theorem Local.bind (h : Local r) (hf : ∀ a, Local (f a)) : Local (r >>= f) := by
  intro c b c' heq more
  obtain ⟨a, d, hr, hfa⟩ := run_bind_eq_ok.mp heq
  exact run_bind_eq_ok.mpr ⟨a, d ++ more, h c a d hr more, hf a d b c' hfa more⟩

theorem Local.map (h : Local r) (g : α → β) : Local (g <$> r) := by
  rw [← bind_pure_comp]
  exact h.bind (fun a ↦ local_pure (g a))

theorem local_readBE (e : ε) (k : ℕ) : Local (readBE e k) :=
  (local_takeBytes e k).bind (fun bytes ↦ local_pure (ofBE bytes))

end Local

end Aldivine.Foundation.Wire
