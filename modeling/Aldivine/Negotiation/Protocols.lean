import Aldivine.Negotiation.Model
import Mathlib.Order.Bounds.Basic

namespace Aldivine.Negotiation.Protocols

open Model Foundation.Fallible

variable {policy : NegotiationPolicy} {client : Hello} {set : NegotiatedSet} {v : BitVec 16}

def serverRange (policy : NegotiationPolicy) : Set (BitVec 16) :=
  {v | policy.serverProtocolMin ≤ v ∧ v ≤ policy.serverProtocolMax}

def clientRange (client : Hello) : Set (BitVec 16) :=
  {v | client.protocolMin ≤ v ∧ v ≤ client.protocolMax}

/-- A version is agreed on exactly when the ranges meet, and then it is the largest common one. -/
def Intersects (policy : NegotiationPolicy) (client : Hello) (protocol : ProtocolNegotiation) :
    Prop :=
  ((∃ v, protocol = .agreed v) ↔ (serverRange policy ∩ clientRange client).Nonempty) ∧
    ∀ v, protocol = .agreed v → IsGreatest (serverRange policy ∩ clientRange client) v

/-- The server range spans the gap between the bounds of a client whose minimum is above its
maximum. -/
def Spanned (policy : NegotiationPolicy) (client : Hello) : Prop :=
  policy.serverProtocolMin ≤ client.protocolMax ∧ client.protocolMax < client.protocolMin ∧
    client.protocolMin ≤ policy.serverProtocolMax

/-- The protocol that the handshake decides on, also where a feature stops it afterwards. -/
structure Decides (policy : NegotiationPolicy) (client : Hello) : Prop where
  protocol : ∃ protocol, negotiateProtocol policy client = .ok protocol ∧
    Intersects policy client protocol
  negotiated : ∀ set, negotiate policy client = .ok set → Intersects policy client set.protocol

theorem negotiateProtocol_isOk (policy : NegotiationPolicy) (client : Hello) :
    ∃ protocol, negotiateProtocol policy client = .ok protocol := by
  unfold negotiateProtocol
  split
  · exact ⟨_, rfl⟩
  · split
    · exact ⟨_, rfl⟩
    · dsimp only
      split <;> exact ⟨_, rfl⟩

theorem negotiate_protocol (h : negotiate policy client = .ok set) :
    negotiateProtocol policy client = .ok set.protocol := by
  obtain ⟨protocol, hprotocol, h⟩ := bind_eq_ok.mp h
  obtain ⟨features, -, h⟩ := bind_eq_ok.mp h
  cases h
  exact hprotocol

theorem negotiateProtocol_agreed_iff :
    negotiateProtocol policy client = .ok (.agreed v) ↔
      policy.serverProtocolMin ≤ client.protocolMax ∧
        client.protocolMin ≤ policy.serverProtocolMax ∧
        policy.serverProtocolMin ≤ policy.serverProtocolMax ∧
        v = least policy.serverProtocolMax client.protocolMax := by
  unfold negotiateProtocol
  split
  · rename_i hold
    exact iff_of_false nofun (fun h ↦ absurd hold (BitVec.not_lt.mpr h.1))
  · rename_i hmax
    split
    · rename_i hnew
      exact iff_of_false nofun (fun h ↦ absurd hnew (BitVec.not_lt.mpr h.2.1))
    · rename_i hmin
      rw [BitVec.not_lt] at hmax hmin
      have hguard : least policy.serverProtocolMax client.protocolMax <
          least policy.serverProtocolMin client.protocolMax ↔
          policy.serverProtocolMax < policy.serverProtocolMin := by
        unfold least
        simp only [BitVec.lt_def, BitVec.le_def] at hmax ⊢
        split <;> split <;> omega
      dsimp only
      split
      · rename_i hempty
        rw [hguard] at hempty
        exact iff_of_false nofun (fun h ↦ absurd hempty (BitVec.not_lt.mpr h.2.2.1))
      · rename_i hspeaks
        rw [hguard, BitVec.not_lt] at hspeaks
        constructor
        · intro h
          cases h
          exact ⟨hmax, hmin, hspeaks, rfl⟩
        · intro h
          rw [h.2.2.2]

def Agreeable (policy : NegotiationPolicy) (client : Hello) : Prop :=
  policy.serverProtocolMin ≤ client.protocolMax ∧
    client.protocolMin ≤ policy.serverProtocolMax ∧
    policy.serverProtocolMin ≤ policy.serverProtocolMax

theorem isAgreed_iff {protocol : ProtocolNegotiation}
    (hprotocol : negotiateProtocol policy client = .ok protocol) :
    protocol.isAgreed = true ↔ Agreeable policy client := by
  constructor
  · intro h
    cases protocol with
    | agreed v =>
      obtain ⟨hmax, hmin, hspeaks, -⟩ := negotiateProtocol_agreed_iff.mp hprotocol
      exact ⟨hmax, hmin, hspeaks⟩
    | _ => cases h
  · intro h
    have hagreed := negotiateProtocol_agreed_iff.mpr ⟨h.1, h.2.1, h.2.2, rfl⟩
    cases hprotocol.symm.trans hagreed
    rfl

theorem le_least_iff {a b : BitVec 16} : v ≤ least a b ↔ v ≤ a ∧ v ≤ b := by
  unfold least
  simp only [BitVec.lt_def, BitVec.le_def]
  split <;> omega

theorem least_le (a b : BitVec 16) : least a b ≤ a ∧ least a b ≤ b :=
  le_least_iff.mp (BitVec.le_refl _)

theorem agreeable_of_mem (h : v ∈ serverRange policy ∩ clientRange client) :
    Agreeable policy client := by
  obtain ⟨⟨hsmin, hsmax⟩, hcmin, hcmax⟩ := h
  exact ⟨BitVec.le_trans hsmin hcmax, BitVec.le_trans hcmin hsmax, BitVec.le_trans hsmin hsmax⟩

theorem isGreatest_least (hclient : client.protocolMin ≤ client.protocolMax)
    (h : Agreeable policy client) :
    IsGreatest (serverRange policy ∩ clientRange client)
      (least policy.serverProtocolMax client.protocolMax) := by
  obtain ⟨hmax, hmin, hspeaks⟩ := h
  obtain ⟨hserver, hours⟩ := least_le policy.serverProtocolMax client.protocolMax
  refine ⟨⟨⟨le_least_iff.mpr ⟨hspeaks, hmax⟩, hserver⟩,
    le_least_iff.mpr ⟨hmin, hclient⟩, hours⟩, fun v hv ↦ ?_⟩
  obtain ⟨⟨-, hsmax⟩, -, hcmax⟩ := hv
  exact le_least_iff.mpr ⟨hsmax, hcmax⟩

theorem intersects_iff {protocol : ProtocolNegotiation}
    (hprotocol : negotiateProtocol policy client = .ok protocol) :
    Intersects policy client protocol ↔ ¬ Spanned policy client := by
  have hagreed (v : BitVec 16) := hprotocol ▸ @negotiateProtocol_agreed_iff policy client v
  simp only [Except.ok.injEq] at hagreed
  constructor
  · intro h hspanned
    obtain ⟨hmax, hgap, hmin⟩ := hspanned
    have hspeaks := BitVec.le_trans hmax (BitVec.le_trans (BitVec.le_of_lt hgap) hmin)
    obtain ⟨v, -, hcmin, hcmax⟩ := h.1.mp ⟨_, (hagreed _).mpr ⟨hmax, hmin, hspeaks, rfl⟩⟩
    exact absurd (BitVec.le_trans hcmin hcmax) (BitVec.not_le.mpr hgap)
  · intro h
    have hgreatest (v : BitVec 16) (hv : protocol = .agreed v) :
        IsGreatest (serverRange policy ∩ clientRange client) v := by
      obtain ⟨hmax, hmin, hspeaks, rfl⟩ := (hagreed v).mp hv
      have hclient : client.protocolMin ≤ client.protocolMax :=
        BitVec.not_lt.mp (fun hgap ↦ h ⟨hmax, hgap, hmin⟩)
      exact isGreatest_least hclient ⟨hmax, hmin, hspeaks⟩
    refine ⟨⟨fun hv ↦ ?_, fun hmeet ↦ ?_⟩, hgreatest⟩
    · obtain ⟨v, hv⟩ := hv
      exact ⟨v, (hgreatest v hv).1⟩
    · obtain ⟨v, hv⟩ := hmeet
      obtain ⟨hmax, hmin, hspeaks⟩ := agreeable_of_mem hv
      exact ⟨_, (hagreed _).mpr ⟨hmax, hmin, hspeaks, rfl⟩⟩

/-- The handshake agrees on the largest common version of the two ranges, unless the server range
spans the bounds of an empty client range. -/
theorem decides_iff (policy : NegotiationPolicy) (client : Hello) :
    Decides policy client ↔ ¬ Spanned policy client := by
  obtain ⟨protocol, hprotocol⟩ := negotiateProtocol_isOk policy client
  constructor
  · intro h
    obtain ⟨protocol, hprotocol, hintersects⟩ := h.protocol
    exact (intersects_iff hprotocol).mp hintersects
  · intro h
    refine ⟨⟨protocol, hprotocol, (intersects_iff hprotocol).mpr h⟩, fun set hset ↦ ?_⟩
    exact (intersects_iff (negotiate_protocol hset)).mpr h

/-- A client that speaks no version: its minimum is 7 and its maximum 5. -/
def backwards : Hello := ⟨"astryn", "1.0.0", 5, 7, [], []⟩

def spanning : NegotiationPolicy := { NegotiationPolicy.default with serverProtocolMax := 10 }

theorem backwards_agreed :
    (∃ set, negotiate spanning backwards = .ok set ∧ set.protocol = .agreed 5 ∧
      set.allowed = true) ∧ ¬ Decides spanning backwards := by
  have hagreed : ∃ set, negotiate spanning backwards = .ok set ∧ set.protocol = .agreed 5 ∧
      set.allowed = true := ⟨_, rfl, rfl, rfl⟩
  refine ⟨hagreed, fun h ↦ ?_⟩
  obtain ⟨set, hset, hprotocol, -⟩ := hagreed
  obtain ⟨v, -, hmin, hmax⟩ := (h.negotiated set hset).1.mp ⟨5, hprotocol⟩
  have hempty : ¬ backwards.protocolMin ≤ backwards.protocolMax := by decide
  exact hempty (BitVec.le_trans hmin hmax)

end Aldivine.Negotiation.Protocols
