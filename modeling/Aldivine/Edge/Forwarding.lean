import Aldivine.Edge.Hashing
import Aldivine.Edge.Networks
import Aldivine.Foundation.Text

namespace Aldivine.Edge.Forwarding

open Foundation.BitStrings Foundation.Digests Foundation.Text Foundation.Wire Hashing Networks

section Hmac

def resize (bytes : List UInt8) (n : ℕ) (x : UInt8) : List UInt8 :=
  bytes.take n ++ List.replicate (n - bytes.length) x

def hmacSha256Bytes (key msg : List UInt8) : List UInt8 :=
  let k := resize (if 64 < key.length then sha256Bytes key else key) 64 0
  let ipad := (List.range 64).map (fun i ↦ k.getD i 0 ^^^ 0x36)
  let opad := (List.range 64).map (fun i ↦ k.getD i 0 ^^^ 0x5c)
  sha256Bytes (opad ++ sha256Bytes (ipad ++ msg))

theorem map_getD_range {n : ℕ} {bytes : List UInt8} (h : bytes.length = n) (f : UInt8 → UInt8) :
    (List.range n).map (fun i ↦ f (bytes.getD i 0)) = bytes.map f := by
  apply List.ext_getElem
  · rw [List.length_map, List.length_map, List.length_range, h]
  · intro i hrange hbytes
    rw [List.length_map] at hbytes
    rw [List.getElem_map, List.getElem_map, List.getElem_range,
      List.getD_eq_getElem _ _ hbytes]

/-- The code's HMAC is that of the RFC, over the code's digest. -/
theorem hmacSha256Bytes_eq (key msg : List UInt8) :
    hmacSha256Bytes key msg = hmac sha256Bytes 64 key msg := by
  have hkey : resize (if 64 < key.length then sha256Bytes key else key) 64 0 =
      hmacKey sha256Bytes 64 key := by
    unfold resize hmacKey
    dsimp only
    rw [List.take_of_length_le]
    split_ifs
    · rw [length_sha256Bytes]
      decide
    · omega
  have hlength : (hmacKey sha256Bytes 64 key).length = 64 := by
    unfold hmacKey
    dsimp only
    split_ifs
    · rw [List.length_append, length_sha256Bytes, List.length_replicate]
    · rw [List.length_append, List.length_replicate]
      omega
  unfold hmacSha256Bytes hmac
  dsimp only
  rw [hkey, map_getD_range hlength (· ^^^ 0x36), map_getD_range hlength (· ^^^ 0x5c)]

end Hmac

section Hex

def hexByte (b : UInt8) : List Char := [Nat.digitChar (b.toNat / 16), Nat.digitChar (b.toNat % 16)]

def lowerHex (bytes : List UInt8) : String := String.ofList (bytes.flatMap hexByte)

theorem hexByte_injective {a b : UInt8} (h : hexByte a = hexByte b) : a = b := by
  have hdigit : ∀ i < 16, ∀ j < 16, Nat.digitChar i = Nat.digitChar j → i = j := by decide
  have ha : a.toNat < 256 := a.toNat_lt
  have hb : b.toNat < 256 := b.toNat_lt
  have hpair := List.cons.inj h
  have hhigh := hdigit _ (by omega) _ (by omega) hpair.1
  have hlow := hdigit _ (by omega) _ (by omega) (List.cons.inj hpair.2).1
  apply UInt8.toNat_inj.mp
  omega

theorem lowerHex_injective {xs ys : List UInt8} (h : lowerHex xs = lowerHex ys) : xs = ys := by
  have hdigits : xs.flatMap hexByte = ys.flatMap hexByte := String.ofList_injective h
  clear h
  induction xs generalizing ys with
  | nil =>
    cases ys with
    | nil => rfl
    | cons y ys => cases hdigits
  | cons x xs ih =>
    cases ys with
    | nil => cases hdigits
    | cons y ys =>
      rw [List.flatMap_cons, List.flatMap_cons] at hdigits
      obtain ⟨hfirst, hrest⟩ := List.append_inj hdigits rfl
      rw [hexByte_injective hfirst, ih hrest]

end Hex

section Stamping

structure ForwardedIdentity where
  realIp : String
  ts : ℤ
  mac : String
deriving DecidableEq

def sha256Hex (data : List UInt8) : String := lowerHex (sha256Bytes data)

def hmacHex (key msg : List UInt8) : String := sha256Hex (hmacSha256Bytes key msg)

-- how an address is written is the standard library's
variable (display : IpAddr → String)

/-- The milliseconds since 1970, cast to `i64`; none where the clock is before 1970. -/
def stampTime (now : Option ℕ) : ℤ := (now.map (fun ms ↦ (BitVec.ofNat 64 ms).toInt)).getD 0

def stamp (now : Option ℕ) (realIp : IpAddr) (secret : String) : ForwardedIdentity :=
  let ts := stampTime now
  let msg := display realIp ++ "|" ++ toString ts
  { realIp := display realIp, ts, mac := hmacHex (utf8 secret) (utf8 msg) }

/-- The HMAC that the documentation of `mac` describes. -/
def documentedTag (now : Option ℕ) (realIp : IpAddr) (secret : String) : List UInt8 :=
  hmac sha256Bytes 64 (utf8 secret) (utf8 (display realIp ++ "|" ++ toString (stampTime now)))

theorem stamp_mac (now : Option ℕ) (realIp : IpAddr) (secret : String) :
    (stamp display now realIp secret).mac =
      lowerHex (sha256Bytes (documentedTag display now realIp secret)) := by
  change sha256Hex (hmacSha256Bytes _ _) = _
  rw [hmacSha256Bytes_eq]
  rfl

/-- The header has the digest of the tag in place of the tag. -/
theorem stamp_mac_iff (now : Option ℕ) (realIp : IpAddr) (secret : String) :
    (stamp display now realIp secret).mac = lowerHex (documentedTag display now realIp secret) ↔
      sha256 (bitsOf (documentedTag display now realIp secret)) =
        bitsOf (documentedTag display now realIp secret) := by
  have hlength : (documentedTag display now realIp secret).length < 2 ^ 61 := by
    change (sha256Bytes _).length < _
    rw [length_sha256Bytes]
    decide
  rw [stamp_mac, ← bitsOf_sha256Bytes hlength]
  constructor
  · intro h
    rw [lowerHex_injective h]
  · intro h
    rw [bitsOf_injective h]

/-- The digest and the HMAC are those of their standards; the header's `mac` is the documented one
exactly when the documented one is a fixed point of SHA-256. -/
theorem hashing_follows_standards_iff (display : IpAddr → String) :
    (∀ data, data.length < 2 ^ 61 → bitsOf (sha256Bytes data) = sha256 (bitsOf data)) ∧
      (∀ key msg, hmacSha256Bytes key msg = hmac sha256Bytes 64 key msg) ∧
      ∀ now realIp secret,
        (stamp display now realIp secret).mac = lowerHex (documentedTag display now realIp secret) ↔
          sha256 (bitsOf (documentedTag display now realIp secret)) =
            bitsOf (documentedTag display now realIp secret) :=
  ⟨fun _ hdata ↦ bitsOf_sha256Bytes hdata, hmacSha256Bytes_eq, stamp_mac_iff display⟩

def dotted : IpAddr → String
  | .v4 ip => ".".intercalate ((toBE 4 ip.toNat).map (fun b ↦ toString b.toNat))
  | .v6 _ => "::"

def twoBlocks : List UInt8 := utf8 "abcdbcdecdefdefgefghfghighijhijkijkljklmklmnlmnomnopnopq"

def twoBlocksDigest : List UInt8 :=
  [36, 141, 106, 97, 210, 6, 56, 184, 229, 192, 38, 147, 12, 62, 96, 57, 163, 60, 228,
    89, 100, 255, 33, 103, 246, 236, 237, 212, 25, 219, 6, 193]

theorem hashing_twoBlocks : sha256 (bitsOf twoBlocks) = bitsOf twoBlocksDigest := by
  have hlength : twoBlocks.length < 2 ^ 61 := by decide
  have hdigest : sha256Bytes twoBlocks = twoBlocksDigest := by decide +kernel
  rw [← (hashing_follows_standards_iff dotted).1 twoBlocks hlength, hdigest]

/-- The tag of the epoch and the address 10.0.0.7 under the key `secret`. -/
def sampleTag : List UInt8 :=
  [86, 12, 161, 39, 32, 220, 174, 125, 25, 131, 134, 169, 133, 141, 211, 144, 162, 212, 205, 100,
    76, 54, 122, 8, 203, 17, 177, 2, 214, 197, 214, 72]

/-- One digest at a time is evaluated. -/
theorem documentedTag_sample :
    documentedTag dotted (some 0) (.v4 0x0A000007) "secret" = sampleTag := by
  have hinner : sha256Bytes ((hmacKey sha256Bytes 64 (utf8 "secret")).map (· ^^^ 0x36) ++
      utf8 (dotted (.v4 0x0A000007) ++ "|" ++ toString (stampTime (some 0)))) =
      [16, 248, 61, 91, 191, 182, 185, 104, 84, 96, 94, 194, 59, 126, 252, 28, 101, 227, 207, 160,
        115, 24, 108, 103, 159, 12, 154, 56, 56, 4, 165, 63] := by decide +kernel
  rw [documentedTag, hmac, hinner]
  decide +kernel

theorem stamp_hashes_twice :
    (stamp dotted (some 0) (.v4 0x0A000007) "secret").mac ≠
      lowerHex (documentedTag dotted (some 0) (.v4 0x0A000007) "secret") := by
  intro h
  rw [stamp_mac, documentedTag_sample] at h
  have hmoved : sha256Bytes sampleTag ≠ sampleTag := by decide +kernel
  exact hmoved (lowerHex_injective h)

end Stamping

end Aldivine.Edge.Forwarding
