import Aldivine.Foundation.Digests

namespace Aldivine.Edge.Hashing

open Foundation.BitStrings Foundation.Digests Foundation.Wire

section Sha256

def K : List (BitVec 32) :=
  [0x428a2f98, 0x71374491, 0xb5c0fbcf, 0xe9b5dba5, 0x3956c25b, 0x59f111f1, 0x923f82a4, 0xab1c5ed5,
    0xd807aa98, 0x12835b01, 0x243185be, 0x550c7dc3, 0x72be5d74, 0x80deb1fe, 0x9bdc06a7, 0xc19bf174,
    0xe49b69c1, 0xefbe4786, 0x0fc19dc6, 0x240ca1cc, 0x2de92c6f, 0x4a7484aa, 0x5cb0a9dc, 0x76f988da,
    0x983e5152, 0xa831c66d, 0xb00327c8, 0xbf597fc7, 0xc6e00bf3, 0xd5a79147, 0x06ca6351, 0x14292967,
    0x27b70a85, 0x2e1b2138, 0x4d2c6dfc, 0x53380d13, 0x650a7354, 0x766a0abb, 0x81c2c92e, 0x92722c85,
    0xa2bfe8a1, 0xa81a664b, 0xc24b8b70, 0xc76c51a3, 0xd192e819, 0xd6990624, 0xf40e3585, 0x106aa070,
    0x19a4c116, 0x1e376c08, 0x2748774c, 0x34b0bcb5, 0x391c0cb3, 0x4ed8aa4a, 0x5b9cca4f, 0x682e6ff3,
    0x748f82ee, 0x78a5636f, 0x84c87814, 0x8cc70208, 0x90befffa, 0xa4506ceb, 0xbef9a3f7, 0xc67178f2]

def h₀ : State :=
  ⟨0x6a09e667, 0xbb67ae85, 0x3c6ef372, 0xa54ff53a, 0x510e527f, 0x9b05688c, 0x1f83d9ab, 0x5be0cd19⟩

/-- The loop that pushes zeros: `fuel` rounds at most. -/
def pushZeros : ℕ → List UInt8 → List UInt8
  | 0, padded => padded
  | fuel + 1, padded =>
    if padded.length % 64 ≠ 56 then pushZeros fuel (padded ++ [0]) else padded

def padded (data : List UInt8) : List UInt8 :=
  let ml : BitVec 64 := .ofNat 64 data.length * 8
  pushZeros 64 (data ++ [0x80]) ++ toBE 8 ml.toNat

def chunks (bytes : List UInt8) : List (List UInt8) :=
  (List.range (bytes.length / 64)).map (fun i ↦ (bytes.drop (64 * i)).take 64)

def word (w : List (BitVec 32)) (i : ℕ) : BitVec 32 := w.getD i 0

def readWord (chunk : List UInt8) (w : List (BitVec 32)) (i : ℕ) : List (BitVec 32) :=
  w.set i (.ofNat 32 (ofBE ((chunk.drop (4 * i)).take 4)))

def extendWord (w : List (BitVec 32)) (i : ℕ) : List (BitVec 32) :=
  let s0 := (word w (i - 15)).rotateRight 7 ^^^ (word w (i - 15)).rotateRight 18 ^^^
    word w (i - 15) >>> 3
  let s1 := (word w (i - 2)).rotateRight 17 ^^^ (word w (i - 2)).rotateRight 19 ^^^
    word w (i - 2) >>> 10
  w.set i (word w (i - 16) + s0 + word w (i - 7) + s1)

def messageWords (chunk : List UInt8) : List (BitVec 32) :=
  (List.range' 16 48).foldl extendWord
    ((List.range 16).foldl (readWord chunk) (List.replicate 64 0))

def step (w : List (BitVec 32)) (x : State) (i : ℕ) : State :=
  let s1 := x.e.rotateRight 6 ^^^ x.e.rotateRight 11 ^^^ x.e.rotateRight 25
  let ch := (x.e &&& x.f) ^^^ (~~~x.e &&& x.g)
  let t1 := x.h + s1 + ch + word K i + word w i
  let s0 := x.a.rotateRight 2 ^^^ x.a.rotateRight 13 ^^^ x.a.rotateRight 22
  let maj := (x.a &&& x.b) ^^^ (x.a &&& x.c) ^^^ (x.b &&& x.c)
  let t2 := s0 + maj
  ⟨t1 + t2, x.a, x.b, x.c, x.d + t1, x.e, x.f, x.g⟩

def chunkStep (h : State) (chunk : List UInt8) : State :=
  let x := (List.range 64).foldl (step (messageWords chunk)) h
  ⟨h.a + x.a, h.b + x.b, h.c + x.c, h.d + x.d, h.e + x.e, h.f + x.f, h.g + x.g, h.h + x.h⟩

def sha256Bytes (data : List UInt8) : List UInt8 :=
  let h := (chunks (padded data)).foldl chunkStep h₀
  [h.a, h.b, h.c, h.d, h.e, h.f, h.g, h.h].flatMap (fun w ↦ toBE 4 w.toNat)

end Sha256

section Padding

theorem pushZeros_eq {k fuel : ℕ} {bytes : List UInt8} (h : (bytes.length + k) % 64 = 56)
    (hk : k < 64) (hfuel : k ≤ fuel) :
    pushZeros fuel bytes = bytes ++ List.replicate k 0 := by
  induction k generalizing fuel bytes with
  | zero =>
    rw [List.replicate_zero, List.append_nil]
    cases fuel with
    | zero => rfl
    | succ fuel => exact if_neg (not_not.mpr h)
  | succ k ih =>
    obtain ⟨fuel, rfl⟩ : ∃ f, fuel = f + 1 := ⟨fuel - 1, by omega⟩
    have hlength : (bytes ++ [0]).length = bytes.length + 1 := List.length_append
    have hmore : bytes.length % 64 ≠ 56 := by omega
    rw [pushZeros, if_pos hmore, ih (by rw [hlength]; omega) (by omega) (by omega),
      List.append_assoc, List.replicate_succ]
    rfl

theorem bitsOf_zeros (k : ℕ) : bitsOf (List.replicate k 0) = List.replicate (8 * k) false := by
  induction k with
  | zero => rfl
  | succ k ih =>
    rw [List.replicate_succ, bitsOf_cons, ih, Nat.mul_succ, Nat.add_comm, List.replicate_add]
    rfl

theorem bitsOf_padded {data : List UInt8} (hdata : data.length < 2 ^ 61) :
    bitsOf (padded data) = pad (bitsOf data) := by
  obtain ⟨k, hk, hlength⟩ : ∃ k < 64, (data.length + 1 + k) % 64 = 56 :=
    ⟨(119 - data.length % 64) % 64, by omega, by omega⟩
  have hmarked : (data ++ [0x80]).length = data.length + 1 := List.length_append
  have hzeros : zeros (bitsOf data).length = 7 + 8 * k := by
    rw [length_bitsOf]
    exact zeros_eq (by omega) (by omega)
  have hml : (BitVec.ofNat 64 data.length * 8).toNat = (bitsOf data).length := by
    rw [length_bitsOf, BitVec.toNat_mul, BitVec.toNat_ofNat]
    change data.length % 2 ^ 64 * 8 % 2 ^ 64 = _
    omega
  unfold padded pad
  dsimp only
  rw [pushZeros_eq (by rw [hmarked]; exact hlength) hk hk.le, hml, hzeros, List.replicate_add]
  have hmark : bitsOf [0x80] = true :: List.replicate 7 false := rfl
  rw [bitsOf_append, bitsOf_append, bitsOf_append, hmark, bitsOf_zeros, bitsOf_toBE]
  simp only [List.append_assoc, List.cons_append]

end Padding

section Schedule

variable {w : List (BitVec 32)} {m : ℕ → Word} {i : ℕ}

theorem word_set_self (v : BitVec 32) (hi : i < w.length) : word (w.set i v) i = v := by
  rw [word, List.getD_eq_getElem?_getD, List.getElem?_set_self hi]
  rfl

theorem word_set_ne (v : BitVec 32) {j : ℕ} (hij : i ≠ j) : word (w.set i v) j = word w j := by
  rw [word, word, List.getD_eq_getElem?_getD, List.getElem?_set_ne hij,
    List.getD_eq_getElem?_getD]

def Filled (m : ℕ → Word) (n : ℕ) (w : List (BitVec 32)) : Prop :=
  w.length = 64 ∧ ∀ t < n, word w t = schedule m t

theorem Filled.set {v : BitVec 32} (hw : Filled m i w) (hi : i < 64) (hv : v = schedule m i) :
    Filled m (i + 1) (w.set i v) := by
  refine ⟨by rw [List.length_set]; exact hw.1, fun t ht ↦ ?_⟩
  by_cases hti : t = i
  · rw [hti, word_set_self v (hw.1.symm ▸ hi), hv]
  · rw [word_set_ne v (Ne.symm hti)]
    exact hw.2 t (by omega)

theorem rotateRight_eq {n : ℕ} (hn : n < 32) (x : BitVec 32) : x.rotateRight n = rotr n x := by
  rw [BitVec.rotateRight_def, Nat.mod_eq_of_lt hn]
  rfl

theorem Filled.extend (hw : Filled m i w) (hlow : 16 ≤ i) (hi : i < 64) :
    Filled m (i + 1) (extendWord w i) := by
  apply hw.set hi
  have h₂ := hw.2 (i - 2) (by omega)
  have h₇ := hw.2 (i - 7) (by omega)
  have h₁₅ := hw.2 (i - 15) (by omega)
  have h₁₆ := hw.2 (i - 16) (by omega)
  have hschedule : schedule m i = smallSigma₁ (schedule m (i - 2)) + schedule m (i - 7) +
      smallSigma₀ (schedule m (i - 15)) + schedule m (i - 16) := by
    rw [schedule, if_neg (Nat.not_lt.mpr hlow)]
  rw [h₂, h₇, h₁₅, h₁₆, hschedule]
  unfold smallSigma₀ smallSigma₁
  simp only [rotateRight_eq (show 7 < 32 by decide), rotateRight_eq (show 18 < 32 by decide),
    rotateRight_eq (show 17 < 32 by decide), rotateRight_eq (show 19 < 32 by decide)]
  ac_rfl

theorem foldl_range'_induct {σ : Type} {I : ℕ → σ → Prop} {f : σ → ℕ → σ} {s : σ} {start n : ℕ}
    (hs : I start s) (hstep : ∀ i s, start ≤ i → i < start + n → I i s → I (i + 1) (f s i)) :
    I (start + n) ((List.range' start n).foldl f s) := by
  induction n with
  | zero => exact hs
  | succ n ih =>
    have hlast := ih (fun i s hlow hi ↦ hstep i s hlow (hi.trans (Nat.lt_succ_self _)))
    rw [List.range'_concat, List.foldl_append, Nat.one_mul]
    exact hstep (start + n) _ (Nat.le_add_right _ _) (Nat.lt_succ_self _) hlast

theorem filled_messageWords {chunk : List UInt8}
    (hm : ∀ t < 16, m t = .ofNat 32 (ofBE ((chunk.drop (4 * t)).take 4))) :
    Filled m 64 (messageWords chunk) := by
  have hempty : Filled m 0 (List.replicate 64 0) :=
    ⟨List.length_replicate, fun t ht ↦ absurd ht (Nat.not_lt_zero t)⟩
  have hread : Filled m 16 ((List.range 16).foldl (readWord chunk) (List.replicate 64 0)) := by
    rw [List.range_eq_range']
    refine foldl_range'_induct hempty (fun i w _ hi hw ↦ hw.set (by omega) ?_)
    rw [schedule, if_pos (by omega), hm i (by omega)]
  exact foldl_range'_induct hread (fun i w hlow hi hw ↦ hw.extend hlow (by omega))

end Schedule

section Compression

variable {m : ℕ → Word}

theorem word_K {t : ℕ} (ht : t < 64) : word K t = constant t := by
  have hroots : ∀ t < 64,
      let p := (primes.getD t 0)
      (Nat.nthRoot 3 p * 2 ^ 32 + (word K t).toNat) ^ 3 ≤ p * 2 ^ (32 * 3) ∧
        p * 2 ^ (32 * 3) < (Nat.nthRoot 3 p * 2 ^ 32 + (word K t).toNat + 1) ^ 3 := by
    rw [primes_eq]
    decide +kernel
  exact (rootFraction_eq (hroots t ht).1 (hroots t ht).2).symm

theorem h₀_eq : h₀ = initial := by
  decide +kernel

theorem step_eq (w : List (BitVec 32)) (x : State) (i : ℕ) :
    step w x i = round (word K i) (word w i) x := by
  unfold step Foundation.Digests.round bigSigma₀ bigSigma₁ ch maj
  simp only [rotateRight_eq (show 6 < 32 by decide), rotateRight_eq (show 11 < 32 by decide),
    rotateRight_eq (show 25 < 32 by decide), rotateRight_eq (show 2 < 32 by decide),
    rotateRight_eq (show 13 < 32 by decide), rotateRight_eq (show 22 < 32 by decide)]

theorem chunkStep_eq {chunk : List UInt8}
    (hm : ∀ t < 16, m t = .ofNat 32 (ofBE ((chunk.drop (4 * t)).take 4))) (h : State) :
    chunkStep h chunk = compress m h := by
  have hwords := (filled_messageWords hm).2
  have hrounds : (List.range 64).foldl (step (messageWords chunk)) h =
      (List.range 64).foldl (fun y t ↦ round (constant t) (schedule m t) y) h := by
    refine List.foldl_ext _ _ _ (fun y t ht ↦ ?_)
    rw [step_eq, word_K (List.mem_range.mp ht), hwords t (List.mem_range.mp ht)]
  unfold chunkStep compress State.add
  rw [hrounds]
  simp only [BitVec.add_comm]

theorem blockWord_bitsOf (bytes : List UInt8) (i : ℕ) {t : ℕ} (ht : t < 16) :
    blockWord (bitsOf bytes) i t =
      .ofNat 32 (ofBE ((((bytes.drop (64 * i)).take 64).drop (4 * t)).take 4)) := by
  have hstart : 512 * i + 32 * t = 8 * (64 * i + 4 * t) := by ring
  have hbytes : (((bytes.drop (64 * i)).take 64).drop (4 * t)).take 4 =
      (bytes.drop (64 * i + 4 * t)).take 4 := by
    rw [List.drop_take, List.drop_drop, List.take_take, Nat.min_eq_left (by omega)]
  have htake := bitsOf_take 4 (bytes.drop (64 * i + 4 * t))
  rw [blockWord, hstart, bitsOf_drop, htake, ofBits_bitsOf, hbytes]

theorem bitsOf_words (h : State) :
    bitsOf ([h.a, h.b, h.c, h.d, h.e, h.f, h.g, h.h].flatMap (fun w ↦ toBE 4 w.toNat)) =
      h.bits := by
  have hword (w : BitVec 32) : bitsOf (toBE 4 w.toNat) = toBits 32 w.toNat := bitsOf_toBE 4 w.toNat
  unfold State.bits
  simp only [List.flatMap_cons, List.flatMap_nil, bitsOf_append, hword, bitsOf_nil]

/-- The code's digest is that of the standard. -/
theorem bitsOf_sha256Bytes {data : List UInt8} (hdata : data.length < 2 ^ 61) :
    bitsOf (sha256Bytes data) = sha256 (bitsOf data) := by
  have hblocks : (bitsOf (padded data)).length / 512 = (padded data).length / 64 := by
    rw [length_bitsOf]
    omega
  unfold sha256Bytes sha256
  dsimp only
  rw [bitsOf_words, ← bitsOf_padded hdata, hblocks, ← h₀_eq, chunks, List.foldl_map]
  congr 1
  refine List.foldl_ext _ _ _ (fun h i _ ↦ ?_)
  exact chunkStep_eq (fun t ht ↦ blockWord_bitsOf _ i ht) h

theorem length_sha256Bytes (data : List UInt8) : (sha256Bytes data).length = 32 := by
  simp [sha256Bytes]

end Compression

end Aldivine.Edge.Hashing
