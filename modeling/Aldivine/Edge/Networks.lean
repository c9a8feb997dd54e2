import Aldivine.Core.Basics
import Aldivine.Foundation.Machine
import Aldivine.Foundation.Text

namespace Aldivine.Edge.Networks

open Core.Error Foundation.Machine Foundation.Text

inductive IpAddr
  | v4 (ip : BitVec 32)
  | v6 (ip : BitVec 128)
deriving DecidableEq

def IpAddr.isIpv4 : IpAddr → Bool
  | .v4 _ => true
  | .v6 _ => false

inductive EdgeError
  | badCidr (s : String)
deriving DecidableEq

def parseU8 (s : String) : Option (BitVec 8) :=
  let digits := match s.toList with
    | '+' :: rest => rest
    | chars => chars
  if digits.isEmpty ∨ ¬digits.all Char.isDigit then none
  else if Nat.ofDigitChars 10 digits 0 ≤ 255 then some (.ofNat 8 (Nat.ofDigitChars 10 digits 0))
  else none

def maxBits (addr : IpAddr) : BitVec 8 := if addr.isIpv4 then 32 else 128

section Parsing

variable (parseAddr : String → Option IpAddr)

def parseNet (s : String) : Except EdgeError (IpAddr × BitVec 8) :=
  match splitOnce '/' s with
  | none => .error (.badCidr s)
  | some (addr, bits) =>
    match parseAddr (trim addr) with
    | none => .error (.badCidr s)
    | some addr =>
      match parseU8 (trim bits) with
      | none => .error (.badCidr s)
      | some bits => if bits > maxBits addr then .error (.badCidr s) else .ok (addr, bits)

def parseNets (list : List String) : Except EdgeError (List (IpAddr × BitVec 8)) :=
  list.mapM (parseNet parseAddr)

structure Cidr where
  base : IpAddr
  bits : BitVec 8
deriving DecidableEq

def Cidr.parse (s : String) : Except AldError Cidr :=
  match splitOnce '/' s with
  | none => .error (.invalidArgument "missing /prefix")
  | some (addr, bits) =>
    match parseAddr (trim addr) with
    | none => .error (.invalidArgument ("bad cidr addr: " ++ addr))
    | some base =>
      match parseU8 (trim bits) with
      | none => .error (.invalidArgument "bad prefix")
      | some bits =>
        if bits > maxBits base then .error (.invalidArgument "prefix out of range")
        else .ok ⟨base, bits⟩

end Parsing

section Matching

variable (mode : Overflow)

/-- The edge shifts both addresses down to the network part. -/
def ipInNet (ip net : IpAddr) (bits : BitVec 8) : Option Bool :=
  match ip, net with
  | .v4 a, .v4 n => do
    let shift := 32 - bits.toNat
    let pa ← mode.shiftRight a shift
    let pn ← mode.shiftRight n shift
    return pa == pn
  | .v6 a, .v6 n => do
    let shift := 128 - bits.toNat
    let pa ← mode.shiftRight a shift
    let pn ← mode.shiftRight n shift
    return pa == pn
  | _, _ => some false

def inRangeV4 (addr base : BitVec 32) (bits : BitVec 8) : Option Bool :=
  if bits = 0 then some true
  else do
    let mask ← if 32 ≤ bits.toNat then some (.allOnes 32)
      else (mode.shiftRight (.allOnes 32) bits.toNat).map (~~~·)
    return addr &&& mask == base &&& mask

def octet (addr : BitVec 128) (i : ℕ) : BitVec 8 := addr.extractLsb' (120 - 8 * i) 8

def octetMask (take : ℕ) : Option (BitVec 8) :=
  if take = 8 then some 0xFF else mode.shiftLeft (0xFF : BitVec 8) (8 - take)

/-- The loop of `in_range_v6` over the octets that are left. -/
def inRangeV6From (addr base : BitVec 128) (bits : ℤ) : List ℕ → Option Bool
  | [] => some true
  | i :: rest =>
    if bits ≤ 0 then some true
    else do
      let mask ← octetMask mode (min bits 8).toNat
      if octet addr i &&& mask ≠ octet base i &&& mask then return false
      else inRangeV6From addr base (bits - 8) rest

def inRangeV6 (addr base : BitVec 128) (bits : BitVec 8) : Option Bool :=
  inRangeV6From mode addr base bits.toNat (List.range 16)

def Cidr.contains (c : Cidr) (ip : IpAddr) : Option Bool :=
  if c.base.isIpv4 ≠ ip.isIpv4 then some false
  else match c.base, ip with
    | .v4 b, .v4 a => inRangeV4 mode a b c.bits
    | .v6 b, .v6 a => inRangeV6 mode a b c.bits
    | _, _ => some false

end Matching

/-- The families match and the first `bits` bits are equal. -/
def Within (ip net : IpAddr) (bits : ℕ) : Prop :=
  match ip, net with
  | .v4 a, .v4 n => SameLeading bits a n
  | .v6 a, .v6 n => SameLeading bits a n
  | _, _ => False

/-- Whatever a shift that is too long does, both evaluations end with the same answer, the right
one. -/
def Agree (net : IpAddr × BitVec 8) (c : Cidr) (ip : IpAddr) : Prop :=
  ∀ mode, ∃ answer, ipInNet mode ip net.1 net.2 = some answer ∧ c.contains mode ip = some answer ∧
    (answer = true ↔ Within ip net.1 net.2.toNat)

section Parsed

variable {parseAddr : String → Option IpAddr} {s : String}

theorem parseNet_eq_ok {net : IpAddr × BitVec 8} (h : parseNet parseAddr s = .ok net) :
    Cidr.parse parseAddr s = .ok ⟨net.1, net.2⟩ ∧ net.2 ≤ maxBits net.1 := by
  unfold parseNet at h
  unfold Cidr.parse
  split at h
  · cases h
  · split at h
    · cases h
    · split at h
      · cases h
      · split at h
        · cases h
        · rename_i hle
          cases h
          simp only [*]
          exact ⟨rfl, BitVec.not_lt.mp hle⟩

end Parsed

variable {mode : Overflow} {bits : BitVec 8}

theorem toNat_pos (hbits : bits ≠ 0) : 0 < bits.toNat := by
  rw [Nat.pos_iff_ne_zero]
  intro hzero
  exact hbits (BitVec.eq_of_toNat_eq hzero)

section Edge

theorem shifted_eq {w : ℕ} (a n : BitVec w) (hle : bits.toNat ≤ w) (hbits : bits ≠ 0) :
    (do
      let pa ← mode.shiftRight a (w - bits.toNat)
      let pn ← mode.shiftRight n (w - bits.toNat)
      return pa == pn) = some (decide (SameLeading bits.toNat a n)) := by
  have hpos := toNat_pos hbits
  have hlt : w - bits.toNat < w := by omega
  rw [shiftRight_of_lt a hlt, shiftRight_of_lt n hlt]
  refine congrArg some ?_
  rw [beq_eq_decide]
  exact decide_eq_decide.mpr (ushiftRight_eq_iff hle)

end Edge

section Masks

theorem inRangeV4_eq (a b : BitVec 32) (hle : bits.toNat ≤ 32) :
    inRangeV4 mode a b bits = some (decide (SameLeading bits.toNat a b)) := by
  unfold inRangeV4
  by_cases hzero : bits = 0
  · subst hzero
    rw [if_pos rfl]
    refine congrArg some (decide_eq_true ?_).symm
    intro i hi
    exact absurd hi (Nat.not_lt_zero i)
  · rw [if_neg hzero]
    by_cases hfull : 32 ≤ bits.toNat
    · rw [if_pos hfull]
      refine congrArg some ?_
      rw [beq_eq_decide]
      refine decide_eq_decide.mpr (and_mask_eq_iff (fun i hi ↦ ?_))
      simp only [BitVec.getMsbD_allOnes, hi, Nat.lt_of_lt_of_le hi hfull]
    · have hlt : bits.toNat < 32 := Nat.lt_of_not_le hfull
      rw [if_neg hfull, shiftRight_of_lt _ hlt]
      refine congrArg some ?_
      rw [beq_eq_decide]
      refine decide_eq_decide.mpr (and_mask_eq_iff (fun i hi ↦ ?_))
      rw [BitVec.getMsbD_not, BitVec.getMsbD_ushiftRight, BitVec.getMsbD_allOnes]
      by_cases hlow : i < bits.toNat
      · simp [hlow, hi]
      · have hsub : i - bits.toNat < 32 := by omega
        simp [hlow, hi, hsub]

theorem octet_getMsbD (a : BitVec 128) {i j : ℕ} (hi : i < 16) (hj : j < 8) :
    (octet a i).getMsbD j = a.getMsbD (8 * i + j) := by
  have hin : 120 - 8 * i + 8 - j ≤ 128 := by omega
  have hat : 128 - (120 - 8 * i + 8 - j) = 8 * i + j := by omega
  rw [octet, BitVec.getMsbD_extractLsb', decide_eq_true hj, decide_eq_true hin, hat,
    Bool.true_and, Bool.true_and]

theorem octet_mask (mode : Overflow) {take : ℕ} (hpos : 0 < take) (hle : take ≤ 8) :
    ∃ mask, octetMask mode take = some mask ∧ ∀ j < 8, mask.getMsbD j = decide (j < take) := by
  by_cases hfull : take = 8
  · subst hfull
    exact ⟨0xFF, if_pos rfl, by decide⟩
  · have hshort : 8 - take < 8 := by omega
    refine ⟨_, (if_neg hfull).trans (shiftLeft_of_lt _ hshort), fun j hj ↦ ?_⟩
    · have hones : (0xFF : BitVec 8) = .allOnes 8 := rfl
      rw [BitVec.getMsbD_shiftLeft, hones, BitVec.getMsbD_allOnes]
      exact decide_eq_decide.mpr (by omega)

/-- The loop has looked at the first `i` octets and compares the rest. -/
theorem inRangeV6From_eq (mode : Overflow) (a b : BitVec 128) {p : ℕ} (hp : p ≤ 128) (n i : ℕ)
    (hsum : i + n = 16) :
    inRangeV6From mode a b ((p : ℤ) - 8 * i) (List.range' i n) =
      some (decide (∀ j < p, 8 * i ≤ j → a.getMsbD j = b.getMsbD j)) := by
  induction n generalizing i with
  | zero =>
    refine congrArg some (decide_eq_true ?_).symm
    intro j hj hij
    omega
  | succ n ih =>
    rw [List.range'_succ, inRangeV6From]
    by_cases hdone : (p : ℤ) - 8 * i ≤ 0
    · rw [if_pos hdone]
      refine congrArg some (decide_eq_true ?_).symm
      intro j hj hij
      omega
    · have hpos : 0 < (min ((p : ℤ) - 8 * i) 8).toNat := by omega
      have hle : (min ((p : ℤ) - 8 * i) 8).toNat ≤ 8 := by omega
      obtain ⟨mask, hmask, hbits⟩ := octet_mask mode hpos hle
      have hoctet := and_mask_eq_iff (a := octet a i) (b := octet b i) hbits
      have hleft : (p : ℤ) - 8 * i - 8 = (p : ℤ) - 8 * (i + 1 : ℕ) := by omega
      rw [if_neg hdone, hmask, Option.bind_eq_bind, Option.bind_some, hleft, ih (i + 1) (by omega)]
      split
      · rename_i hdiff
        refine congrArg some (decide_eq_false ?_).symm
        intro hsame
        refine hdiff (hoctet.mpr (fun j hj ↦ ?_))
        rw [octet_getMsbD a (by omega) (by omega), octet_getMsbD b (by omega) (by omega)]
        exact hsame (8 * i + j) (by omega) (by omega)
      · rename_i hsame
        have hhere := hoctet.mp (not_not.mp hsame)
        refine congrArg some (decide_eq_decide.mpr ?_)
        constructor
        · intro hrest j hj hij
          by_cases hnext : 8 * (i + 1) ≤ j
          · exact hrest j hj hnext
          · have hbit := hhere (j - 8 * i) (by omega)
            rw [octet_getMsbD a (by omega) (by omega),
              octet_getMsbD b (by omega) (by omega)] at hbit
            have hat : 8 * i + (j - 8 * i) = j := by omega
            rwa [hat] at hbit
        · intro hall j hj hij
          exact hall j hj (by omega)

theorem inRangeV6_eq (a b : BitVec 128) (hle : bits.toNat ≤ 128) :
    inRangeV6 mode a b bits = some (decide (SameLeading bits.toNat a b)) := by
  have hloop := inRangeV6From_eq mode a b hle 16 0 rfl
  have hstart : (bits.toNat : ℤ) - 8 * (0 : ℕ) = bits.toNat := by omega
  rw [← List.range_eq_range', hstart] at hloop
  rw [inRangeV6, hloop]
  refine congrArg some (decide_eq_decide.mpr ?_)
  exact ⟨fun h j hj ↦ h j hj (Nat.zero_le j), fun h j hj _ ↦ h j hj⟩

end Masks

theorem contains_eq (mode : Overflow) (c : Cidr) (ip : IpAddr) (hle : c.bits ≤ maxBits c.base) :
    ∃ answer, c.contains mode ip = some answer ∧
      (answer = true ↔ Within ip c.base c.bits.toNat) := by
  have hle' : c.bits.toNat ≤ (maxBits c.base).toNat := hle
  obtain ⟨base, bits⟩ := c
  cases base with
  | v4 b =>
    cases ip with
    | v4 a => exact ⟨_, inRangeV4_eq a b hle', decide_eq_true_iff⟩
    | v6 a => exact ⟨false, rfl, iff_of_false Bool.false_ne_true id⟩
  | v6 b =>
    cases ip with
    | v4 a => exact ⟨false, rfl, iff_of_false Bool.false_ne_true id⟩
    | v6 a => exact ⟨_, inRangeV6_eq a b hle', decide_eq_true_iff⟩

theorem ipInNet_eq (mode : Overflow) {ip net : IpAddr} (hle : bits ≤ maxBits net)
    (h : bits ≠ 0 ∨ ip.isIpv4 ≠ net.isIpv4) :
    ∃ answer, ipInNet mode ip net bits = some answer ∧
      (answer = true ↔ Within ip net bits.toNat) := by
  have hle' : bits.toNat ≤ (maxBits net).toNat := hle
  cases net with
  | v4 n =>
    cases ip with
    | v4 a =>
      have hbits := h.resolve_right (fun hne ↦ hne rfl)
      exact ⟨_, shifted_eq a n hle' hbits, decide_eq_true_iff⟩
    | v6 a => exact ⟨false, rfl, iff_of_false Bool.false_ne_true id⟩
  | v6 n =>
    cases ip with
    | v4 a => exact ⟨false, rfl, iff_of_false Bool.false_ne_true id⟩
    | v6 a =>
      have hbits := h.resolve_right (fun hne ↦ hne rfl)
      exact ⟨_, shifted_eq a n hle' hbits, decide_eq_true_iff⟩

theorem ipInNet_zero {ip net : IpAddr} (h : ip.isIpv4 = net.isIpv4) :
    ipInNet .panics ip net 0 = none := by
  cases net with
  | v4 n =>
    cases ip with
    | v4 a =>
      have hpanic : Overflow.panics.shiftRight a (32 - (0 : BitVec 8).toNat) = none :=
        shiftRight_panics a (Nat.le_refl 32)
      rw [ipInNet, hpanic]
      rfl
    | v6 a => cases h
  | v6 n =>
    cases ip with
    | v4 a => cases h
    | v6 a =>
      have hpanic : Overflow.panics.shiftRight a (128 - (0 : BitVec 8).toNat) = none :=
        shiftRight_panics a (Nat.le_refl 128)
      rw [ipInNet, hpanic]
      rfl

/-- The two implementations agree on an address exactly when the network has bits to compare or is
of the other family. -/
theorem agree_iff (parseAddr : String → Option IpAddr) (s : String) (net : IpAddr × BitVec 8)
    (c : Cidr) (ip : IpAddr) (hnet : parseNet parseAddr s = .ok net)
    (hc : Cidr.parse parseAddr s = .ok c) :
    Agree net c ip ↔ net.2 ≠ 0 ∨ ip.isIpv4 ≠ net.1.isIpv4 := by
  obtain ⟨hparsed, hle⟩ := parseNet_eq_ok hnet
  obtain rfl := Except.ok.inj (hc.symm.trans hparsed)
  constructor
  · intro hagree
    by_contra hnot
    obtain ⟨hzero, hfamily⟩ := not_or.mp hnot
    obtain ⟨answer, hedge, -⟩ := hagree .panics
    rw [not_not.mp hzero, ipInNet_zero (not_not.mp hfamily)] at hedge
    cases hedge
  · intro h mode
    obtain ⟨answer, hedge, hanswer⟩ := ipInNet_eq mode hle h
    obtain ⟨answer', hcidr, hanswer'⟩ := contains_eq mode ⟨net.1, net.2⟩ ip hle
    have hsame : answer' = answer := Bool.eq_iff_iff.mpr (hanswer'.trans hanswer.symm)
    exact ⟨answer, hedge, hsame ▸ hcidr, hanswer⟩

def knownAddr (s : String) : Option IpAddr :=
  if s = "10.0.0.0" then some (.v4 0x0a000000)
  else if s = "0.0.0.0" then some (.v4 0)
  else none

theorem agree_eight_bits : Agree (.v4 0x0a000000, 8) ⟨.v4 0x0a000000, 8⟩ (.v4 0x0a010203) :=
  (agree_iff knownAddr "10.0.0.0/8" (.v4 0x0a000000, 8) ⟨.v4 0x0a000000, 8⟩ (.v4 0x0a010203)
    (by decide +kernel) (by decide +kernel)).mpr (.inl (by decide))

/-- The network of all addresses: the edge panics, or says that an address other than `0.0.0.0`
is not in it. -/
theorem everything_disagrees :
    parseNet knownAddr "0.0.0.0/0" = .ok (.v4 0, 0) ∧
      Cidr.parse knownAddr "0.0.0.0/0" = .ok ⟨.v4 0, 0⟩ ∧
      ¬Agree (.v4 0, 0) ⟨.v4 0, 0⟩ (.v4 0x7f000001) ∧
      ipInNet .panics (.v4 0x7f000001) (.v4 0) 0 = none ∧
      ipInNet .wraps (.v4 0x7f000001) (.v4 0) 0 = some false ∧
      Cidr.contains .wraps ⟨.v4 0, 0⟩ (.v4 0x7f000001) = some true := by
  refine ⟨by decide +kernel, by decide +kernel, ?_, rfl, rfl, rfl⟩
  intro hagree
  obtain ⟨answer, hedge, -⟩ := hagree .panics
  cases hedge

end Aldivine.Edge.Networks
