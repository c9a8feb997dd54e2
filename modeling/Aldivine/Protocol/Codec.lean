import Aldivine.Core.Basics
import Aldivine.Foundation.Wire

namespace Aldivine.Protocol.Codec

open Core.Error Foundation.Wire

def maxPayload : ℕ := 16 * 1024 * 1024

def headerLen : ℕ := 32

inductive Channel
  | control
  | auth
  | eventReliable
  | eventUnreliable
  | entityState
  | resourceTransfer
  | admin
  | heartbeat
  | voiceMetadata
deriving DecidableEq

def Channel.toU8 : Channel → UInt8
  | control => 0
  | auth => 1
  | eventReliable => 2
  | eventUnreliable => 3
  | entityState => 4
  | resourceTransfer => 5
  | admin => 6
  | heartbeat => 7
  | voiceMetadata => 8

def Channel.fromU8 (v : UInt8) : Option Channel :=
  match v.toNat with
  | 0 => some control
  | 1 => some auth
  | 2 => some eventReliable
  | 3 => some eventUnreliable
  | 4 => some entityState
  | 5 => some resourceTransfer
  | 6 => some admin
  | 7 => some heartbeat
  | 8 => some voiceMetadata
  | _ => none

structure PacketHeader where
  protocolVersion : BitVec 16
  sessionId : BitVec 64
  channel : Channel
  sequence : BitVec 32
  tick : BitVec 32
  timestampMs : BitVec 64
  flags : UInt8
  payloadLen : BitVec 32
deriving DecidableEq

structure Packet where
  header : PacketHeader
  payload : List UInt8
deriving DecidableEq

def PacketHeader.bytes (h : PacketHeader) : List UInt8 :=
  toLE 2 h.protocolVersion.toNat ++ (toLE 8 h.sessionId.toNat ++ ([h.channel.toU8] ++
    (toLE 4 h.sequence.toNat ++ (toLE 4 h.tick.toNat ++ (toLE 8 h.timestampMs.toNat ++
      ([h.flags] ++ toLE 4 h.payloadLen.toNat))))))

/-- The length of the payload is compared after it was cut to 32 bits. -/
def encodePacket (p : Packet) : Except AldError (List UInt8) :=
  if BitVec.ofNat 32 p.payload.length ≠ p.header.payloadLen then
    .error (.protocol "payload_len mismatch")
  else if p.header.payloadLen.toNat > maxPayload then
    .error (.protocol "payload exceeds MAX_PAYLOAD")
  else .ok (p.header.bytes ++ p.payload)

def decodePacket (bytes : List UInt8) (expectedVersion : BitVec 16) : Except AldError Packet :=
  if bytes.length < headerLen then .error (.protocol "packet shorter than header")
  else
    let protocolVersion := BitVec.ofNat 16 (ofLE (slice bytes 0 2))
    if protocolVersion ≠ expectedVersion then
      .error (.protocol ("protocol version mismatch: got " ++ toString protocolVersion.toNat ++
        ", want " ++ toString expectedVersion.toNat))
    else
      let sessionId := BitVec.ofNat 64 (ofLE (slice bytes 2 8))
      match Channel.fromU8 (bytes.getD 10 0) with
      | none => .error (.protocol "invalid channel")
      | some channel =>
        let sequence := BitVec.ofNat 32 (ofLE (slice bytes 11 4))
        let tick := BitVec.ofNat 32 (ofLE (slice bytes 15 4))
        let timestampMs := BitVec.ofNat 64 (ofLE (slice bytes 19 8))
        let flags := bytes.getD 27 0
        let payloadLen := BitVec.ofNat 32 (ofLE (slice bytes 28 4))
        if payloadLen.toNat > maxPayload then
          .error (.protocol "declared payload exceeds MAX_PAYLOAD")
        else
          let total := headerLen + payloadLen.toNat
          if bytes.length ≠ total then
            .error (.protocol ("packet length " ++ toString bytes.length ++ " != header " ++
              toString headerLen ++ " + payload " ++ toString payloadLen.toNat))
          else
            .ok ⟨⟨protocolVersion, sessionId, channel, sequence, tick, timestampMs, flags,
              payloadLen⟩, slice bytes headerLen payloadLen.toNat⟩

end Aldivine.Protocol.Codec

namespace Aldivine.Protocol.RoundTrip

open Foundation.Wire Codec

variable {p : Packet} {bytes : List UInt8} {version : BitVec 16}

section Fields

theorem fromU8_toU8 (c : Channel) : Channel.fromU8 c.toU8 = some c := by
  cases c <;> rfl

theorem toU8_of_fromU8 {v : UInt8} {c : Channel} (h : Channel.fromU8 v = some c) : c.toU8 = v := by
  apply UInt8.toNat_inj.mp
  unfold Channel.fromU8 at h
  split at h
  all_goals cases h
  all_goals rename_i hv; exact hv.symm

theorem ofNat_ofLE_toLE {w : ℕ} (k : ℕ) (h : 256 ^ k = 2 ^ w) (x : BitVec w) :
    BitVec.ofNat w (ofLE (toLE k x.toNat)) = x := by
  rw [ofLE_toLE_of_lt (h ▸ x.isLt), BitVec.ofNat_toNat, BitVec.setWidth_eq]

theorem toLE_ofNat_ofLE {w k : ℕ} (h : 256 ^ k = 2 ^ w) (hlen : bytes.length = k) :
    toLE k (BitVec.ofNat w (ofLE bytes)).toNat = bytes := by
  have hlt : ofLE bytes < 2 ^ w := by
    rw [← h, ← hlen]
    exact ofLE_lt bytes
  rw [BitVec.toNat_ofNat, Nat.mod_eq_of_lt hlt, toLE_ofLE hlen]

end Fields

theorem length_bytes (h : PacketHeader) : h.bytes.length = headerLen := by
  simp [PacketHeader.bytes, headerLen]

theorem slices_bytes (h : PacketHeader) (rest : List UInt8) :
    slice (h.bytes ++ rest) 0 2 = toLE 2 h.protocolVersion.toNat ∧
      slice (h.bytes ++ rest) 2 8 = toLE 8 h.sessionId.toNat ∧
      (h.bytes ++ rest).getD 10 0 = h.channel.toU8 ∧
      slice (h.bytes ++ rest) 11 4 = toLE 4 h.sequence.toNat ∧
      slice (h.bytes ++ rest) 15 4 = toLE 4 h.tick.toNat ∧
      slice (h.bytes ++ rest) 19 8 = toLE 8 h.timestampMs.toNat ∧
      (h.bytes ++ rest).getD 27 0 = h.flags ∧
      slice (h.bytes ++ rest) 28 4 = toLE 4 h.payloadLen.toNat := by
  have hbyte (i : ℕ) (b : UInt8) (hi : i < headerLen) (hb : slice (h.bytes ++ rest) i 1 = [b]) :
      (h.bytes ++ rest).getD i 0 = b := by
    have hlt : i < (h.bytes ++ rest).length := by
      rw [List.length_append, length_bytes]
      omega
    rw [slice_one hlt 0] at hb
    exact List.singleton_inj.mp hb
  refine ⟨?_, ?_, hbyte 10 _ (by decide) ?_, ?_, ?_, ?_, hbyte 27 _ (by decide) ?_, ?_⟩
  all_goals simp [PacketHeader.bytes, slice_front, slice_skip, slice_cons_zero, slice_cons_pos]

theorem encodePacket_eq_ok :
    encodePacket p = .ok bytes ↔ BitVec.ofNat 32 p.payload.length = p.header.payloadLen ∧
      p.header.payloadLen.toNat ≤ maxPayload ∧ bytes = p.header.bytes ++ p.payload := by
  unfold encodePacket
  split
  · rename_i hne
    exact iff_of_false (fun h ↦ by cases h) (fun h ↦ hne h.1)
  · rename_i heq
    split
    · rename_i hlong
      exact iff_of_false (fun h ↦ by cases h) (fun h ↦ Nat.not_lt.mpr h.2.1 hlong)
    · rename_i hshort
      rw [Except.ok.injEq, eq_comm]
      exact ⟨fun h ↦ ⟨not_not.mp heq, Nat.not_lt.mp hshort, h⟩, fun h ↦ h.2.2⟩

theorem bytes_of_decodePacket (h : decodePacket bytes version = .ok p) :
    p.header.protocolVersion = version ∧ p.payload.length = p.header.payloadLen.toNat ∧
      p.header.payloadLen.toNat ≤ maxPayload ∧ bytes = p.header.bytes ++ p.payload := by
  unfold decodePacket at h
  split at h
  · cases h
  · rename_i hlen
    dsimp only at h
    split at h
    · cases h
    · rename_i hversion
      split at h
      · cases h
      · rename_i channel hchannel
        split at h
        · cases h
        · rename_i hmax
          split at h
          · cases h
          · rename_i htotal
            cases h
            rw [not_lt, headerLen] at hlen
            rw [not_ne_iff] at htotal
            refine ⟨not_ne_iff.mp hversion, length_slice htotal.ge, Nat.not_lt.mp hmax, ?_⟩
            simp only [PacketHeader.bytes, toU8_of_fromU8 hchannel]
            rw [toLE_ofNat_ofLE (by decide) (length_slice (by omega)),
              toLE_ofNat_ofLE (by decide) (length_slice (by omega)),
              toLE_ofNat_ofLE (by decide) (length_slice (by omega)),
              toLE_ofNat_ofLE (by decide) (length_slice (by omega)),
              toLE_ofNat_ofLE (by decide) (length_slice (by omega)),
              toLE_ofNat_ofLE (by decide) (length_slice (by omega)),
              ← slice_one (by omega), ← slice_one (by omega)]
            simp only [List.append_assoc, headerLen]
            rw [slice_append_slice bytes 28 4, slice_append_slice bytes 27 1,
              slice_append_slice bytes 19 8, slice_append_slice bytes 15 4,
              slice_append_slice bytes 11 4, slice_append_slice bytes 10 1,
              slice_append_slice bytes 2 8, slice_append_slice bytes 0 2, slice_all]
            rw [htotal, headerLen]
            omega

theorem decodePacket_bytes (hlen : p.payload.length = p.header.payloadLen.toNat)
    (hmax : p.header.payloadLen.toNat ≤ maxPayload) :
    decodePacket (p.header.bytes ++ p.payload) p.header.protocolVersion = .ok p := by
  have hshort : ¬(p.header.bytes ++ p.payload).length < headerLen := by
    rw [List.length_append, length_bytes]
    omega
  have htotal : ¬(p.header.bytes ++ p.payload).length ≠ headerLen + p.header.payloadLen.toNat := by
    rw [List.length_append, length_bytes, hlen]
    exact not_not.mpr rfl
  have hpayload : slice (p.header.bytes ++ p.payload) headerLen p.header.payloadLen.toNat =
      p.payload := by
    rw [slice_skip (length_bytes _).le, length_bytes, Nat.sub_self, slice_all hlen.le]
  obtain ⟨hversion, hsession, hchannel, hsequence, htick, htimestamp, hflags, hlength⟩ :=
    slices_bytes p.header p.payload
  unfold decodePacket
  rw [if_neg hshort]
  simp only [hversion, hsession, hchannel, hsequence, htick, htimestamp, hflags, hlength,
    fromU8_toU8, ofNat_ofLE_toLE 2 (w := 16) (by decide), ofNat_ofLE_toLE 4 (w := 32) (by decide),
    ofNat_ofLE_toLE 8 (w := 64) (by decide), ne_eq, not_true_eq_false, if_false]
  rw [if_neg (Nat.not_lt.mpr hmax), if_neg htotal, hpayload]

/-- Whatever is decoded is encoded to the same bytes; an encoded packet is decoded to itself exactly
when the length of its payload fits in 32 bits. -/
theorem packets_inverse_iff (p : Packet) (bytes : List UInt8) :
    (encodePacket p = .ok bytes →
      (decodePacket bytes p.header.protocolVersion = .ok p ↔ p.payload.length < 2 ^ 32)) ∧
    ∀ version, decodePacket bytes version = .ok p → encodePacket p = .ok bytes := by
  refine ⟨fun hencode ↦ ?_, fun version hdecode ↦ ?_⟩
  · obtain ⟨hcut, hmax, rfl⟩ := encodePacket_eq_ok.mp hencode
    constructor
    · intro hdecode
      obtain ⟨-, hlen, -⟩ := bytes_of_decodePacket hdecode
      rw [hlen]
      exact p.header.payloadLen.isLt
    · intro hfits
      have hlen : p.payload.length = p.header.payloadLen.toNat := by
        rw [← hcut, BitVec.toNat_ofNat, Nat.mod_eq_of_lt hfits]
      exact decodePacket_bytes hlen hmax
  · obtain ⟨-, hlen, hmax, hbytes⟩ := bytes_of_decodePacket hdecode
    refine encodePacket_eq_ok.mpr ⟨?_, hmax, hbytes⟩
    rw [hlen, BitVec.ofNat_toNat, BitVec.setWidth_eq]

def sample : Packet :=
  ⟨⟨1, 0xDEADBEEF, .eventReliable, 42, 7, 123456, 3, 3⟩, [9, 8, 7]⟩

theorem sample_restored :
    ∃ bytes, encodePacket sample = .ok bytes ∧ decodePacket bytes 1 = .ok sample :=
  ⟨_, rfl, ((packets_inverse_iff sample _).1 rfl).mpr (by decide)⟩

/-- A payload of `2 ^ 32` bytes that is declared to be empty. -/
def oversized : Packet :=
  ⟨{ sample.header with payloadLen := 0 }, List.replicate (2 ^ 32) 0⟩

theorem oversized_not_restored :
    ∃ bytes, encodePacket oversized = .ok bytes ∧ decodePacket bytes 1 ≠ .ok oversized := by
  have hlen : oversized.payload.length = 2 ^ 32 := List.length_replicate
  have hcut : BitVec.ofNat 32 oversized.payload.length = oversized.header.payloadLen := by
    rw [hlen]
    rfl
  refine ⟨_, encodePacket_eq_ok.mpr ⟨hcut, Nat.zero_le _, rfl⟩, fun hdecode ↦ ?_⟩
  obtain ⟨-, hdeclared, -⟩ := bytes_of_decodePacket hdecode
  rw [hlen] at hdeclared
  cases hdeclared

end Aldivine.Protocol.RoundTrip
