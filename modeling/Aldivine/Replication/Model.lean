import Aldivine.Foundation.Locate
import Aldivine.Foundation.Machine
import Aldivine.Foundation.Table

namespace Aldivine.Replication.Model

open Foundation.Locate Foundation.Machine Foundation.Table Std

abbrev Tick := BitVec 32

inductive InterestTier
  | high
  | medium
  | low
  | none
deriving DecidableEq

structure Delta where
  entity : BitVec 64
  component : String
  data : List UInt8
deriving DecidableEq

abbrev Fields := ExtTreeMap String (List UInt8)

structure Baseline where
  tick : Tick
  fields : Fields

structure ReplicationStats where
  packetsSent : BitVec 64
  bytesSent : BitVec 64
  deltasSent : BitVec 64
  snapshotsSent : BitVec 64
  droppedUpdates : BitVec 64
  queued : BitVec 64

/-- Instants are counted from an arbitrary start. -/
structure ReplicationTracker where
  baseline : Baseline
  pending : List Delta
  tier : InterestTier
  lastSent : Option ℕ
  stats : ReplicationStats

inductive ReplicationPacket
  | snapshot (tick : Tick) (fields : Fields)
  | delta (deltas : List Delta)

/-- The deltas are written over the fields one after the other. -/
def overlay (fields : Fields) (deltas : List Delta) : Fields :=
  deltas.foldl (fun fields d ↦ fields.insert d.component d.data) fields

namespace ReplicationStats

/-- The counters after a snapshot, and whether none of them overflowed. -/
def countSnapshot (mode : Overflow) (stats : ReplicationStats) (fields : Fields) :
    ReplicationStats × Bool :=
  match mode.sumOf (fun e ↦ some (BitVec.ofNat 64 e.2.length)) fields.toList with
  | none => (stats, false)
  | some size =>
    match mode.add stats.snapshotsSent 1 with
    | none => (stats, false)
    | some snapshots =>
      let stats := { stats with snapshotsSent := snapshots }
      match mode.add stats.bytesSent size with
      | none => (stats, false)
      | some bytes =>
        let stats := { stats with bytesSent := bytes }
        match mode.add stats.packetsSent 1 with
        | none => (stats, false)
        | some packets => ({ stats with packetsSent := packets }, true)

def countDeltas (mode : Overflow) (stats : ReplicationStats) (deltas : List Delta) :
    ReplicationStats × Bool :=
  match mode.sumOf (fun d ↦ some (BitVec.ofNat 64 d.data.length)) deltas with
  | none => (stats, false)
  | some size =>
    match mode.add stats.deltasSent (BitVec.ofNat 64 deltas.length) with
    | none => (stats, false)
    | some sent =>
      let stats := { stats with deltasSent := sent }
      match mode.add stats.bytesSent size with
      | none => (stats, false)
      | some bytes =>
        let stats := { stats with bytesSent := bytes }
        if deltas = [] then (stats, true)
        else
          match mode.add stats.packetsSent 1 with
          | none => (stats, false)
          | some packets => ({ stats with packetsSent := packets }, true)

end ReplicationStats

namespace ReplicationTracker

def new (initialTick : Tick) : ReplicationTracker :=
  ⟨⟨initialTick, ∅⟩, [], .medium, none, ⟨0, 0, 0, 0, 0, 0⟩⟩

def record (t : ReplicationTracker) (delta : Delta) : ReplicationTracker :=
  match locate (fun d ↦ d.entity == delta.entity && d.component == delta.component) t.pending with
  | some existing => { t with pending := existing.put delta }
  | none => { t with pending := t.pending ++ [delta] }

def acknowledge (t : ReplicationTracker) (tick : Tick) : ReplicationTracker :=
  { t with
    baseline := { t.baseline with tick := tick }
    stats := { t.stats with queued := BitVec.ofNat 64 t.pending.length } }

def setTier (t : ReplicationTracker) (tier : InterestTier) : ReplicationTracker :=
  { t with tier := tier }

/-- The pending deltas are drained before the counters can overflow. -/
def flush (mode : Overflow) (t : ReplicationTracker) (now : ℕ) (forceSnapshot : Bool) :
    ReplicationTracker × Option ReplicationPacket :=
  if forceSnapshot then
    let fields := overlay t.baseline.fields t.pending
    let t := { t with baseline := { t.baseline with fields := fields }, pending := [] }
    match t.stats.countSnapshot mode fields with
    | (stats, false) => ({ t with stats := stats }, none)
    | (stats, true) =>
      ({ t with stats := { stats with queued := 0 }, lastSent := some now },
        some (.snapshot t.baseline.tick fields))
  else
    let deltas := t.pending
    let t := { t with pending := [] }
    match t.stats.countDeltas mode deltas with
    | (stats, false) => ({ t with stats := stats }, none)
    | (stats, true) =>
      ({ t with stats := { stats with queued := 0 }, lastSent := some now }, some (.delta deltas))

end ReplicationTracker

inductive Call
  | record (delta : Delta)
  | acknowledge (tick : Tick)
  | setTier (tier : InterestTier)
  | flush (now : ℕ) (forceSnapshot : Bool)

inductive Reply
  | done
  | sent (packet : ReplicationPacket)
  | panic

def step (mode : Overflow) (t : ReplicationTracker) : Call → ReplicationTracker × Reply
  | .record delta => (t.record delta, .done)
  | .acknowledge tick => (t.acknowledge tick, .done)
  | .setTier tier => (t.setTier tier, .done)
  | .flush now forceSnapshot =>
    match t.flush mode now forceSnapshot with
    | (t, some packet) => (t, .sent packet)
    | (t, none) => (t, .panic)

def ship (sent : List Delta) (x : Call × Reply) : List Delta :=
  match x with
  | (.record delta, _) =>
    sent.filter (fun d ↦ !(d.entity == delta.entity && d.component == delta.component))
  | (_, .sent (.delta deltas)) => sent ++ deltas
  | _ => sent

/-- The deltas that left in a delta packet and were not recorded anew since. -/
def shipped (history : List (Call × Reply)) : List Delta := history.foldl ship []

/-- The counters have room for what the call sends (without overflow checks they need none). -/
def Room (mode : Overflow) (t : ReplicationTracker) : Call → Prop
  | .flush _ true =>
    mode = .wraps ∨
      (t.stats.snapshotsSent.toNat + 1 < 2 ^ 64 ∧ t.stats.packetsSent.toNat + 1 < 2 ^ 64 ∧
        t.stats.bytesSent.toNat +
          ((overlay t.baseline.fields t.pending).toList.map (·.2.length)).sum < 2 ^ 64)
  | .flush _ false =>
    mode = .wraps ∨
      (t.stats.deltasSent.toNat + t.pending.length < 2 ^ 64 ∧
        t.stats.packetsSent.toNat + 1 < 2 ^ 64 ∧
        t.stats.bytesSent.toNat + (t.pending.map (·.data.length)).sum < 2 ^ 64)
  | _ => True

variable {mode : Overflow} {t : ReplicationTracker}

theorem shipped_concat {history : List (Call × Reply)} {x : Call × Reply} :
    shipped (history ++ [x]) = ship (shipped history) x := by
  rw [shipped, List.foldl_append]
  rfl

theorem countSnapshot_room {stats : ReplicationStats} {fields : Fields}
    (hroom : mode = .wraps ∨
      (stats.snapshotsSent.toNat + 1 < 2 ^ 64 ∧ stats.packetsSent.toNat + 1 < 2 ^ 64 ∧
        stats.bytesSent.toNat + (fields.toList.map (·.2.length)).sum < 2 ^ 64)) :
    ∃ stats', stats.countSnapshot mode fields = (stats', true) := by
  obtain ⟨size, hsize, hle⟩ := sumOf_ofNat (w := 64) (f := fun e : String × List UInt8 ↦ e.2.length)
    (l := fields.toList) (hroom.imp_right (fun h ↦ by omega))
  obtain ⟨snapshots, hsnapshots⟩ := word_some (w := 64) (hroom.imp_right (fun h ↦ h.1))
  obtain ⟨packets, hpackets⟩ := word_some (w := 64) (hroom.imp_right (fun h ↦ h.2.1))
  obtain ⟨bytes, hbytes⟩ := word_some (w := 64) (n := stats.bytesSent.toNat + size.toNat)
    (hroom.imp_right (fun h ↦ by omega))
  have hsnapshots : mode.add stats.snapshotsSent 1 = some snapshots := hsnapshots
  have hpackets : mode.add stats.packetsSent 1 = some packets := hpackets
  have hbytes : mode.add stats.bytesSent size = some bytes := hbytes
  simp only [ReplicationStats.countSnapshot, hsize, hsnapshots, hbytes, hpackets]
  exact ⟨_, rfl⟩

theorem countDeltas_room {stats : ReplicationStats} {deltas : List Delta}
    (hroom : mode = .wraps ∨
      (stats.deltasSent.toNat + deltas.length < 2 ^ 64 ∧ stats.packetsSent.toNat + 1 < 2 ^ 64 ∧
        stats.bytesSent.toNat + (deltas.map (·.data.length)).sum < 2 ^ 64)) :
    ∃ stats', stats.countDeltas mode deltas = (stats', true) := by
  obtain ⟨size, hsize, hle⟩ := sumOf_ofNat (w := 64) (f := fun d : Delta ↦ d.data.length)
    (l := deltas) (hroom.imp_right (fun h ↦ by omega))
  have hlen : (BitVec.ofNat 64 deltas.length).toNat ≤ deltas.length := by
    rw [BitVec.toNat_ofNat]
    exact Nat.mod_le _ _
  obtain ⟨sent, hsent⟩ := word_some (w := 64)
    (n := stats.deltasSent.toNat + (BitVec.ofNat 64 deltas.length).toNat)
    (hroom.imp_right (fun h ↦ by omega))
  obtain ⟨packets, hpackets⟩ := word_some (w := 64) (hroom.imp_right (fun h ↦ h.2.1))
  obtain ⟨bytes, hbytes⟩ := word_some (w := 64) (n := stats.bytesSent.toNat + size.toNat)
    (hroom.imp_right (fun h ↦ by omega))
  have hsent : mode.add stats.deltasSent (BitVec.ofNat 64 deltas.length) = some sent := hsent
  have hpackets : mode.add stats.packetsSent 1 = some packets := hpackets
  have hbytes : mode.add stats.bytesSent size = some bytes := hbytes
  simp only [ReplicationStats.countDeltas, hsize, hsent, hbytes, hpackets]
  split
  · exact ⟨_, rfl⟩
  · exact ⟨_, rfl⟩

/-- What a call that has room does: only a forced flush writes to the baseline's fields, and both
kinds of flush empty the queue. -/
inductive Stepped (t : ReplicationTracker) : Call → ReplicationTracker → Reply → Prop
  | record {delta} : Stepped t (.record delta) (t.record delta) .done
  | acknowledge {tick} : Stepped t (.acknowledge tick) (t.acknowledge tick) .done
  | setTier {tier} : Stepped t (.setTier tier) (t.setTier tier) .done
  | snapshot {now t' tick} (hpending : t'.pending = [])
      (hfields : t'.baseline.fields = overlay t.baseline.fields t.pending) :
      Stepped t (.flush now true) t'
        (.sent (.snapshot tick (overlay t.baseline.fields t.pending)))
  | delta {now t'} (hpending : t'.pending = [])
      (hfields : t'.baseline.fields = t.baseline.fields) :
      Stepped t (.flush now false) t' (.sent (.delta t.pending))

theorem stepped {call : Call} (hroom : Room mode t call) :
    Stepped t call (step mode t call).1 (step mode t call).2 := by
  cases call with
  | record delta => exact .record
  | acknowledge tick => exact .acknowledge
  | setTier tier => exact .setTier
  | flush now force =>
    cases force with
    | true =>
      obtain ⟨stats, hstats⟩ := countSnapshot_room hroom
      simp only [step, ReplicationTracker.flush, if_true, hstats]
      exact .snapshot rfl rfl
    | false =>
      obtain ⟨stats, hstats⟩ := countDeltas_room hroom
      simp only [step, ReplicationTracker.flush, Bool.false_eq_true, if_false, hstats]
      exact .delta rfl rfl

end Aldivine.Replication.Model
