import Aldivine.Foundation.Decimals
import Mathlib.Data.List.Induction

namespace Aldivine.Foundation.Addresses

inductive IpAddr
  | v4 (a b c d : Fin 256)
  | v6 (segments : List (Fin 65536))
deriving DecidableEq

def toDigit (radix : ℕ) (c : Char) : Option ℕ :=
  let d :=
    if c.isDigit then c.toNat - 48
    else if 'a' ≤ c ∧ c ≤ 'z' then c.toNat - 87
    else if 'A' ≤ c ∧ c ≤ 'Z' then c.toNat - 55
    else radix
  if d < radix then some d else none

def isDigitOf (radix : ℕ) (c : Char) : Bool := (toDigit radix c).isSome

def valueOf (radix : ℕ) (digits : List Char) : ℕ :=
  digits.foldl (fun n c ↦ n * radix + (toDigit radix c).getD 0) 0

def readNumber (radix maxDigits bound : ℕ) (zeroPrefix : Bool) (chars : List Char) :
    Option (Fin bound × List Char) :=
  let digits := chars.takeWhile (isDigitOf radix)
  if digits.length > maxDigits ∨ digits = [] then none
  else if zeroPrefix = false ∧ digits.head? = some '0' ∧ 1 < digits.length then none
  else if h : valueOf radix digits < bound then
    some (⟨valueOf radix digits, h⟩, chars.dropWhile (isDigitOf radix))
  else none

/-- The separator stands before all but the first. -/
def readSeparator {α : Type} (sep : Char) (index : ℕ) (inner : List Char → Option α)
    (chars : List Char) : Option α :=
  if 0 < index then
    match chars with
    | c :: rest => if c = sep then inner rest else none
    | [] => none
  else inner chars

def readOctet : List Char → Option (Fin 256 × List Char) := readNumber 10 3 256 false

def readIpv4 (chars : List Char) :
    Option ((Fin 256 × Fin 256 × Fin 256 × Fin 256) × List Char) := do
  let (a, chars) ← readSeparator '.' 0 readOctet chars
  let (b, chars) ← readSeparator '.' 1 readOctet chars
  let (c, chars) ← readSeparator '.' 2 readOctet chars
  let (d, chars) ← readSeparator '.' 3 readOctet chars
  return ((a, b, c, d), chars)

def readGroup : List Char → Option (Fin 65536 × List Char) := readNumber 16 4 65536 true

def group (a b : Fin 256) : Fin 65536 := ⟨a * 256 + b, by omega⟩

/-- At most `left` more groups, the next one with the given index; whether they end with the
notation of version 4; and what stands behind them. -/
def readGroups : (left index : ℕ) → List Char → List (Fin 65536) × Bool × List Char
  | 0, _, chars => ([], false, chars)
  | left + 1, index, chars =>
    match if 0 < left then readSeparator ':' index readIpv4 chars else none with
    | some ((a, b, c, d), rest) => ([group a b, group c d], true, rest)
    | none =>
      match readSeparator ':' index readGroup chars with
      | some (g, rest) =>
        let more := readGroups left (index + 1) rest
        (g :: more.1, more.2)
      | none => ([], false, chars)

def readIpv6 (chars : List Char) : Option (List (Fin 65536) × List Char) :=
  match readGroups 8 0 chars with
  | (head, ipv4, rest) =>
    if head.length = 8 then some (head, rest)
    else if ipv4 then none
    else
      match rest with
      | ':' :: ':' :: rest =>
        match readGroups (8 - (head.length + 1)) 0 rest with
        | (tail, _, rest) =>
          some (head ++ List.replicate (8 - head.length - tail.length) 0 ++ tail, rest)
      | _ => none

def parseIpAddr (chars : List Char) : Option IpAddr :=
  match readIpv4 chars with
  | some ((a, b, c, d), rest) => if rest = [] then some (.v4 a b c d) else none
  | none =>
    match readIpv6 chars with
    | some (segments, rest) => if rest = [] then some (.v6 segments) else none
    | none => none

def dotted (a b c d : Fin 256) : List Char :=
  Nat.toDigits 10 a ++ '.' :: (Nat.toDigits 10 b ++ '.' ::
    (Nat.toDigits 10 c ++ '.' :: Nat.toDigits 10 d))

/-- The first of the longest runs of zeros: where it starts, and its length. -/
def zeroes (segments : List (Fin 65536)) : ℕ × ℕ :=
  (segments.zipIdx.foldl
    (fun spans x ↦
      if x.1 = 0 then
        let current := if spans.2.2 = 0 then (x.2, 1) else (spans.2.1, spans.2.2 + 1)
        if spans.1.2 < current.2 then (current, current) else (spans.1, current)
      else (spans.1, (0, 0)))
    ((0, 0), (0, 0))).1

def hexGroups (chunk : List (Fin 65536)) : List Char :=
  [':'].intercalate (chunk.map (fun g ↦ Nat.toDigits 16 g.val))

def IpAddr.display : IpAddr → String
  | .v4 a b c d => String.ofList (dotted a b c d)
  | .v6 segments =>
    match segments with
    | [0, 0, 0, 0, 0, 65535, high, low] =>
      "::ffff:" ++ String.ofList (dotted (Fin.ofNat 256 (high / 256)) (Fin.ofNat 256 high)
        (Fin.ofNat 256 (low / 256)) (Fin.ofNat 256 low))
    | segments =>
      let (start, len) := zeroes segments
      if 1 < len then
        String.ofList (hexGroups (segments.take start) ++ "::".toList ++
          hexGroups (segments.drop (start + len)))
      else String.ofList (hexGroups segments)

variable {chars rest digits : List Char} {a b c d n : Fin 256}

section Digits

theorem valueOf_concat (radix : ℕ) (digits : List Char) (c : Char) :
    valueOf radix (digits ++ [c]) = valueOf radix digits * radix + (toDigit radix c).getD 0 := by
  rw [valueOf, List.foldl_append]
  rfl

theorem toDigit_of_isDigit {c : Char} (h : c.isDigit = true) :
    c.toNat - 48 < 10 ∧ toDigit 10 c = some (c.toNat - 48) := by
  have hbounds : 48 ≤ c.toNat ∧ c.toNat ≤ 57 := Char.isDigit_iff_toNat.mp h
  have hlt : c.toNat - 48 < 10 := by omega
  exact ⟨hlt, by rw [toDigit, if_pos h, if_pos hlt]⟩

theorem isDigitOf_ten (c : Char) : isDigitOf 10 c = c.isDigit := by
  cases hc : c.isDigit with
  | true => rw [isDigitOf, (toDigit_of_isDigit hc).2, Option.isSome_some]
  | false =>
    have hten : toDigit 10 c = none := by
      rw [toDigit, hc, if_neg Bool.false_ne_true]
      refine if_neg (Nat.not_lt.mpr ?_)
      split_ifs with hlower hupper
      · have hle : 97 ≤ c.toNat := hlower.1
        omega
      · have hle : 65 ≤ c.toNat := hupper.1
        omega
      · exact Nat.le_refl 10
    rw [isDigitOf, hten, Option.isSome_none]

theorem toDigit_digit {c : Char} (h : isDigitOf 10 c = true) :
    ∃ d < 10, toDigit 10 c = some d ∧ c = Nat.digitChar d := by
  rw [isDigitOf_ten] at h
  obtain ⟨hlt, hdigit⟩ := toDigit_of_isDigit h
  have hbounds : 48 ≤ c.toNat ∧ c.toNat ≤ 57 := Char.isDigit_iff_toNat.mp h
  refine ⟨c.toNat - 48, hlt, hdigit, Char.toNat_inj.mp ?_⟩
  rw [Nat.toNat_digitChar_of_lt_ten hlt]
  omega

theorem toDigits_valueOf (hdigits : ∀ c ∈ digits, isDigitOf 10 c = true) (hne : digits ≠ [])
    (hzero : digits.head? = some '0' → digits.length ≤ 1) :
    Nat.toDigits 10 (valueOf 10 digits) = digits := by
  induction digits using List.reverseRecOn with
  | nil => exact absurd rfl hne
  | append_singleton digits c ih =>
    obtain ⟨d, hd, hvalue, hc⟩ := toDigit_digit (hdigits c (by simp))
    rw [valueOf_concat, hvalue, Option.getD_some]
    cases digits with
    | nil =>
      rw [valueOf, List.foldl_nil, Nat.zero_mul, Nat.zero_add, Nat.toDigits_of_lt_base hd, hc]
      rfl
    | cons first digits =>
      have hfirst : first ≠ '0' := by
        intro heq
        have hlen := hzero (congrArg some heq)
        simp at hlen
      have hrest := ih (fun c hc ↦ hdigits c (List.mem_append_left _ hc)) (List.cons_ne_nil _ _)
        (fun h ↦ absurd (Option.some.inj h) hfirst)
      have hpos : 0 < valueOf 10 (first :: digits) := by
        rw [Nat.pos_iff_ne_zero]
        intro hvalue
        rw [hvalue, Nat.toDigits_zero] at hrest
        exact hfirst (List.cons.inj hrest).1.symm
      rw [Nat.mul_comm, ← Nat.toDigits_append_toDigits (by decide) hpos hd, hrest,
        Nat.toDigits_of_lt_base hd, hc]

theorem octet_digits : ∀ n : Fin 256, (Nat.toDigits 10 n).all (isDigitOf 10) = true ∧
    (Nat.toDigits 10 n).length ≤ 3 ∧
    ((Nat.toDigits 10 n).head? = some '0' → (Nat.toDigits 10 n).length ≤ 1) ∧
    valueOf 10 (Nat.toDigits 10 n) = n := by
  decide +kernel

theorem readNumber_eq_some {radix maxDigits bound : ℕ} {zeroPrefix : Bool} {x : Fin bound}
    (h : readNumber radix maxDigits bound zeroPrefix chars = some (x, rest)) :
    chars.takeWhile (isDigitOf radix) ≠ [] ∧ rest = chars.dropWhile (isDigitOf radix) ∧
      (x : ℕ) = valueOf radix (chars.takeWhile (isDigitOf radix)) ∧
      (zeroPrefix = false → (chars.takeWhile (isDigitOf radix)).head? = some '0' →
        (chars.takeWhile (isDigitOf radix)).length ≤ 1) := by
  simp only [readNumber] at h
  split_ifs at h with hsome hzero hbound
  obtain ⟨rfl, rfl⟩ := Prod.mk.inj (Option.some.inj h)
  refine ⟨(not_or.mp hsome).2, rfl, rfl, fun hzeros hhead ↦ ?_⟩
  exact Nat.not_lt.mp (fun hlen ↦ hzero ⟨hzeros, hhead, hlen⟩)

theorem readOctet_eq_some (h : readOctet chars = some (n, rest)) :
    chars = Nat.toDigits 10 n ++ rest := by
  obtain ⟨hne, hrest, hvalue, hzero⟩ := readNumber_eq_some h
  have hall : ∀ c ∈ chars.takeWhile (isDigitOf 10), isDigitOf 10 c = true :=
    List.all_eq_true.mp List.all_takeWhile
  rw [hvalue, toDigits_valueOf hall hne (hzero rfl), hrest, List.takeWhile_append_dropWhile]

theorem readOctet_toDigits (hrest : ∀ c ∈ rest.head?, ¬isDigitOf 10 c = true) :
    readOctet (Nat.toDigits 10 n ++ rest) = some (n, rest) := by
  obtain ⟨hall, hlen, hzero, hvalue⟩ := octet_digits n
  have hlt : valueOf 10 (Nat.toDigits 10 n) < 256 := by
    rw [hvalue]
    exact n.isLt
  rw [readOctet, readNumber, Decimals.takeWhile_append_of_head hall hrest,
    Decimals.dropWhile_append_of_head hall hrest]
  rw [if_neg (not_or.mpr ⟨Nat.not_lt.mpr hlen, Nat.toDigits_ne_nil⟩), if_neg, dif_pos hlt]
  · simp only [hvalue, Fin.eta]
  · exact fun h ↦ absurd (hzero h.2.1) (Nat.not_le.mpr h.2.2)

end Digits

section Version4

theorem readSeparator_eq_some {α : Type} {sep : Char} {index : ℕ} {inner : List Char → Option α}
    {x : α} (hindex : 0 < index) (h : readSeparator sep index inner chars = some x) :
    ∃ rest, chars = sep :: rest ∧ inner rest = some x := by
  unfold readSeparator at h
  rw [if_pos hindex] at h
  cases chars with
  | nil => cases h
  | cons c rest =>
    dsimp only at h
    split_ifs at h with hc
    exact ⟨rest, by rw [hc], h⟩

theorem readSeparator_cons {α : Type} {sep : Char} {index : ℕ} {inner : List Char → Option α}
    (hindex : 0 < index) : readSeparator sep index inner (sep :: rest) = inner rest := by
  unfold readSeparator
  rw [if_pos hindex]
  exact if_pos rfl

theorem readIpv4_eq_some (h : readIpv4 chars = some ((a, b, c, d), rest)) :
    chars = dotted a b c d ++ rest := by
  simp only [readIpv4, bind, Option.bind_eq_some_iff, pure, Option.some.injEq, Prod.exists,
    Prod.mk.injEq] at h
  obtain ⟨a', rest₁, h₁, b', rest₂, h₂, c', rest₃, h₃, d', rest₄, h₄, hoctets, rfl⟩ := h
  obtain ⟨rfl, rfl, rfl, rfl⟩ := hoctets
  obtain ⟨tail₁, rfl, h₂⟩ := readSeparator_eq_some (by decide) h₂
  obtain ⟨tail₂, rfl, h₃⟩ := readSeparator_eq_some (by decide) h₃
  obtain ⟨tail₃, rfl, h₄⟩ := readSeparator_eq_some (by decide) h₄
  rw [readOctet_eq_some h₁, readOctet_eq_some h₂, readOctet_eq_some h₃, readOctet_eq_some h₄,
    dotted]
  simp

theorem readIpv4_dotted : readIpv4 (dotted a b c d) = some ((a, b, c, d), []) := by
  have hdot : ∀ l : List Char, ∀ c ∈ ('.' :: l).head?, ¬isDigitOf 10 c = true := by
    intro l c hc
    obtain rfl := Option.some.inj hc
    decide
  have hfirst : readSeparator '.' 0 readOctet (dotted a b c d) = readOctet (dotted a b c d) := rfl
  have hlast : readOctet (Nat.toDigits 10 d) = some (d, []) := by
    have hread := @readOctet_toDigits [] d (by simp)
    rwa [List.append_nil] at hread
  rw [readIpv4, hfirst, dotted, readOctet_toDigits (hdot _)]
  simp only [bind, Option.bind_some]
  rw [readSeparator_cons (by decide), readOctet_toDigits (hdot _), Option.bind_some,
    readSeparator_cons (by decide), readOctet_toDigits (hdot _), Option.bind_some,
    readSeparator_cons (by decide), hlast]
  rfl

theorem parseIpAddr_dotted : parseIpAddr (dotted a b c d) = some (.v4 a b c d) := by
  rw [parseIpAddr, readIpv4_dotted]
  rfl

end Version4

section Characters

def Spelled (c : Char) : Prop := isDigitOf 16 c = true ∨ c = '.' ∨ c = ':'

instance : DecidablePred Spelled :=
  fun c ↦ inferInstanceAs (Decidable (isDigitOf 16 c = true ∨ c = '.' ∨ c = ':'))

theorem spelled_of_isDigit {c : Char} (h : isDigitOf 10 c = true) : Spelled c := by
  rw [isDigitOf_ten] at h
  refine .inl ?_
  rw [isDigitOf, toDigit, if_pos h]
  have hbounds : 48 ≤ c.toNat ∧ c.toNat ≤ 57 := Char.isDigit_iff_toNat.mp h
  rw [if_pos (by omega), Option.isSome_some]

theorem mem_dotted {x : Char} (h : x ∈ dotted a b c d) : x.isDigit = true ∨ x = '.' := by
  have hoctet : ∀ n : Fin 256, ∀ x ∈ Nat.toDigits 10 n, x.isDigit = true ∨ x = '.' :=
    fun n x hx ↦ .inl (Nat.isDigit_of_mem_toDigits (by decide) (by decide) hx)
  simp only [dotted, List.mem_append, List.mem_cons] at h
  rcases h with h | h | h | h | h | h | h
  · exact hoctet a x h
  · exact .inr h
  · exact hoctet b x h
  · exact .inr h
  · exact hoctet c x h
  · exact .inr h
  · exact hoctet d x h

theorem spelled_dotted : ∀ x ∈ dotted a b c d, Spelled x := by
  intro x hx
  refine (mem_dotted hx).elim (fun hdigit ↦ spelled_of_isDigit ?_) (fun hdot ↦ .inr (.inl hdot))
  rwa [isDigitOf_ten]

def Spells (chars rest : List Char) : Prop := ∃ used, chars = used ++ rest ∧ ∀ x ∈ used, Spelled x

theorem Spells.refl (chars : List Char) : Spells chars chars := ⟨[], rfl, List.forall_mem_nil _⟩

theorem Spells.trans {mid : List Char} (h : Spells chars mid) (h' : Spells mid rest) :
    Spells chars rest := by
  obtain ⟨used, rfl, hused⟩ := h
  obtain ⟨more, rfl, hmore⟩ := h'
  exact ⟨used ++ more, (List.append_assoc _ _ _).symm, List.forall_mem_append.mpr ⟨hused, hmore⟩⟩

theorem Spells.cons {x : Char} (h : Spells chars rest) (hx : Spelled x) :
    Spells (x :: chars) rest := by
  obtain ⟨used, rfl, hused⟩ := h
  exact ⟨x :: used, rfl, List.forall_mem_cons.mpr ⟨hx, hused⟩⟩

theorem spells_readIpv4 {x : Fin 256 × Fin 256 × Fin 256 × Fin 256}
    (h : readIpv4 chars = some (x, rest)) : Spells chars rest :=
  ⟨_, readIpv4_eq_some h, spelled_dotted⟩

theorem spells_readGroup {g : Fin 65536} (h : readGroup chars = some (g, rest)) :
    Spells chars rest := by
  obtain ⟨-, hrest, -, -⟩ := readNumber_eq_some h
  refine ⟨chars.takeWhile (isDigitOf 16), ?_,
    fun x hx ↦ .inl (List.all_eq_true.mp List.all_takeWhile x hx)⟩
  rw [hrest, List.takeWhile_append_dropWhile]

theorem spells_readSeparator {α : Type} {index : ℕ} {inner : List Char → Option (α × List Char)}
    {x : α} (hinner : ∀ chars, inner chars = some (x, rest) → Spells chars rest)
    (h : readSeparator ':' index inner chars = some (x, rest)) : Spells chars rest := by
  rcases Nat.eq_zero_or_pos index with rfl | hindex
  · exact hinner chars h
  · obtain ⟨more, rfl, hread⟩ := readSeparator_eq_some hindex h
    exact (hinner more hread).cons (.inr (.inr rfl))

theorem spells_readGroups (left index : ℕ) (chars : List Char) :
    Spells chars (readGroups left index chars).2.2 := by
  induction left generalizing index chars with
  | zero => exact .refl chars
  | succ left ih =>
    rw [readGroups]
    split
    · rename_i hipv4
      split_ifs at hipv4
      exact spells_readSeparator (fun _ ↦ spells_readIpv4) hipv4
    · split
      · rename_i hgroup
        exact (spells_readSeparator (fun _ ↦ spells_readGroup) hgroup).trans (ih _ _)
      · exact .refl chars

theorem spells_readIpv6 {segments : List (Fin 65536)} (h : readIpv6 chars = some (segments, rest)) :
    Spells chars rest := by
  have hfirst := spells_readGroups 8 0 chars
  rw [readIpv6] at h
  split at h
  rename_i head ipv4 tail hhead
  rw [hhead] at hfirst
  split_ifs at h
  · obtain ⟨-, rfl⟩ := Prod.mk.inj (Option.some.inj h)
    exact hfirst
  · split at h
    · rename_i more
      have hcolon : Spelled ':' := .inr (.inr rfl)
      have hsecond := spells_readGroups (8 - (head.length + 1)) 0 more
      obtain ⟨-, rfl⟩ := Prod.mk.inj (Option.some.inj h)
      exact hfirst.trans ((hsecond.cons hcolon).cons hcolon)
    · cases h

theorem Spells.all (h : Spells chars []) : ∀ x ∈ chars, Spelled x := by
  obtain ⟨used, rfl, hused⟩ := h
  rwa [List.append_nil]

theorem not_mem_of_spells {x : Char} (h : Spells chars rest) (hx : x ∉ chars) : x ∉ rest := by
  obtain ⟨used, rfl, -⟩ := h
  exact fun hmem ↦ hx (List.mem_append_right _ hmem)

theorem readSeparator_eq_none {α : Type} {sep : Char} {index : ℕ} {inner : List Char → Option α}
    (hindex : 0 < index) (h : sep ∉ chars) : readSeparator sep index inner chars = none := by
  rw [Option.eq_none_iff_forall_not_mem]
  intro x hx
  obtain ⟨rest, rfl, -⟩ := readSeparator_eq_some hindex hx
  exact h List.mem_cons_self

theorem readGroups_stop {index : ℕ} (left : ℕ) (hindex : 0 < index) (h : ':' ∉ chars) :
    readGroups left index chars = ([], false, chars) := by
  cases left with
  | zero => rfl
  | succ left =>
    rw [readGroups, readSeparator_eq_none hindex h, readSeparator_eq_none hindex h, ite_self]

theorem readIpv6_eq_none (h : ':' ∉ chars) : readIpv6 chars = none := by
  have hrest := not_mem_of_spells (spells_readGroups 8 0 chars) h
  have hlength : (readGroups 8 0 chars).1.length ≤ 2 := by
    rw [readGroups]
    split
    · exact Nat.le_refl 2
    · split
      · rename_i g rest hgroup
        have hstop := not_mem_of_spells (spells_readSeparator (fun _ ↦ spells_readGroup) hgroup) h
        rw [readGroups_stop 7 Nat.one_pos hstop]
        exact Nat.le_succ 1
      · exact Nat.zero_le 2
  rw [readIpv6]
  split
  rename_i head ipv4 rest hhead
  rw [hhead] at hrest hlength
  have hshort : head.length ≠ 8 := by
    intro hlen
    rw [hlen] at hlength
    omega
  rw [if_neg hshort]
  split_ifs
  · rfl
  · split
    · exact absurd List.mem_cons_self hrest
    · rfl

theorem parseIpAddr_eq_some (hcolon : ':' ∉ chars) {ip : IpAddr} (h : parseIpAddr chars = some ip) :
    ∃ a b c d, chars = dotted a b c d ∧ ip = .v4 a b c d := by
  rw [parseIpAddr, readIpv6_eq_none hcolon] at h
  split at h
  · rename_i a b c d rest hread
    split_ifs at h with hrest
    refine ⟨a, b, c, d, ?_, (Option.some.inj h).symm⟩
    rw [readIpv4_eq_some hread, hrest, List.append_nil]
  · cases h

end Characters

end Aldivine.Foundation.Addresses
