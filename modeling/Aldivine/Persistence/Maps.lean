import Aldivine.Foundation.Table
import Aldivine.Persistence.Crashes

namespace Aldivine.Persistence.Maps

open Foundation.Execution Foundation.Machine Codec Model RoundTrip Crashes Std

/-- `BTreeMap<String, Vec<u8>>`. -/
abbrev Entries := ExtTreeMap String (List UInt8)

def applyRecord (base : Entries) (r : Record) : Entries :=
  match r.op with
  | .put => base.insert r.key r.value
  | .delete => base.erase r.key

def applyToMap (recovery : Recovery) (base : Entries) : Entries :=
  recovery.replayed.foldl applyRecord base

def content (op : Op) (value : List UInt8) : Option (List UInt8) :=
  match op with
  | .put => some value
  | .delete => none

theorem getElem?_applyRecord (base : Entries) (r : Record) (key : String) :
    (applyRecord base r)[key]? =
      if r.key = key then content r.op r.value else base[key]? := by
  unfold applyRecord content
  cases r.op with
  | put => simp only [ExtTreeMap.getElem?_insert, Std.compare_eq_iff_eq]
  | delete => simp only [ExtTreeMap.getElem?_erase, Std.compare_eq_iff_eq]

variable (digest : List UInt8 → Digest) (mode : Overflow) (decode : List UInt8 → Entries)

/-- What an event says about the content of a key: an append that was acknowledged, and one that
was interrupted after the last byte of its record. -/
def wrote (key : String) : Event × Reply → Option (Option (List UInt8))
  | (.append op k value, .appended _) => if k = key then some (content op value) else none
  | (.appendCrash op k value cut, .interrupted r) =>
    if k = key ∧ (encodeRecord digest r).length ≤ cut then some (content op value) else none
  | _ => none

def standing (history : List (Event × Reply)) (key : String) : Option (List UInt8) :=
  (latest (wrote digest key) history).join

/-- The map that a caller starts from, its own snapshot. -/
def snapshot (checkpoint : Option (BitVec 64 × List UInt8)) : Entries :=
  checkpoint.elim ∅ (fun base ↦ decode base.2)

def Reflects (history : List (Event × Reply)) (payload : List UInt8) : Prop :=
  ∀ key, (decode payload)[key]? = standing digest history key

def Prudent (s : System) (history : List (Event × Reply)) (event : Event) : Prop :=
  Careful digest mode s history event ∧
    ∀ payload, event = .checkpoint payload ∨ event = .checkpointCrash payload →
      s.journal ≠ none → Reflects digest decode history payload

def restored (l : Ledger) : Entries :=
  (l.acknowledged ++ l.unacknowledged).foldl applyRecord (snapshot decode l.base)

variable {digest mode decode} {l : Ledger} {s : System} {history : List (Event × Reply)}

theorem standing_concat (x : Event × Reply) (key : String) :
    standing digest (history ++ [x]) key =
      match wrote digest key x with
      | some written => written
      | none => standing digest history key := by
  rw [standing, latest_concat]
  cases wrote digest key x with
  | none => rfl
  | some written => rfl

theorem wrote_quiet {event : Event} {reply : Reply} (hquiet : reply.Quiet) (key : String) :
    wrote digest key (event, reply) = none := by
  cases reply with
  | appended r => cases hquiet
  | interrupted r => cases hquiet
  | replaced seq => cases hquiet
  | opened => cases event <;> rfl
  | failed e => cases event <;> rfl
  | panicked => cases event <;> rfl
  | silent => cases event <;> rfl

theorem assign_fields {j j' : Journal} {op : Op} {key : String} {value : List UInt8} {r : Record}
    (h : j.assign mode op key value = .ok (r, j')) :
    r.op = op ∧ r.key = key ∧ r.value = value := by
  unfold Journal.assign at h
  split at h
  · cases h
  · split at h
    · cases h
    · cases h
      exact ⟨rfl, rfl, rfl⟩

theorem restored_write {l' : Ledger} {r : Record} (hbase : l'.base = l.base)
    (hafter : l'.acknowledged ++ l'.unacknowledged = l.acknowledged ++ l.unacknowledged ++ [r])
    (key : String) :
    (restored decode l')[key]? =
      if r.key = key then content r.op r.value else (restored decode l)[key]? := by
  rw [restored, hbase, hafter, List.foldl_append]
  exact getElem?_applyRecord _ r key

/-- The checkpoint and the records after it make up what should be there. -/
def Restores (digest : List UInt8 → Digest) (decode : List UInt8 → Entries)
    (history : List (Event × Reply)) : Prop :=
  ∀ key, (restored decode (ledger digest history))[key]? = standing digest history key

theorem restores_quiet {event : Event} {reply : Reply} (h : Restores digest decode history)
    (hquiet : reply.Quiet) : Restores digest decode (history ++ [(event, reply)]) := by
  intro key
  rw [ledger_concat, note_quiet hquiet, standing_concat, wrote_quiet hquiet]
  exact h key

theorem restores_appended {j j' : Journal} {op : Op} {key : String} {value : List UInt8}
    {r : Record} (h : Restores digest decode history)
    (hassign : j.assign mode op key value = .ok (r, j'))
    (hextra : (ledger digest history).unacknowledged = []) :
    Restores digest decode (history ++ [(.append op key value, .appended r)]) := by
  obtain ⟨rfl, rfl, rfl⟩ := assign_fields hassign
  intro key
  rw [ledger_concat, standing_concat]
  refine (restored_write (l := ledger digest history) (r := r) ?_ ?_ key).trans ?_
  · rfl
  · simp only [note, hextra, List.append_nil]
  · rw [h key]
    simp only [wrote]
    split <;> rfl

theorem restores_interrupted {j j' : Journal} {op : Op} {key : String} {value : List UInt8}
    {cut : ℕ} {r : Record} (h : Restores digest decode history)
    (hassign : j.assign mode op key value = .ok (r, j')) :
    Restores digest decode (history ++ [(.appendCrash op key value cut, .interrupted r)]) := by
  obtain ⟨rfl, rfl, rfl⟩ := assign_fields hassign
  intro key
  rw [ledger_concat, note_interrupted, standing_concat]
  simp only [wrote]
  by_cases hwhole : (encodeRecord digest r).length ≤ cut
  · have hzero : cut ≠ 0 := by
      rw [length_encodeRecord] at hwhole
      omega
    rw [if_neg hzero, if_neg (Nat.not_lt.mpr hwhole)]
    refine (restored_write (l := ledger digest history) (r := r) ?_ ?_ key).trans ?_
    · rfl
    · rw [List.append_assoc]
    · rw [h key]
      by_cases hkey : r.key = key
      · rw [if_pos hkey, if_pos ⟨hkey, hwhole⟩]
      · rw [if_neg hkey, if_neg (fun hboth ↦ hkey hboth.1)]
  · have hnone : ¬(r.key = key ∧ (encodeRecord digest r).length ≤ cut) :=
      fun hboth ↦ hwhole hboth.2
    rw [if_neg hnone, if_pos (Nat.lt_of_not_le hwhole)]
    split
    · exact h key
    · exact h key

theorem restores_replaced {payload : List UInt8} {x : Event × Reply}
    (hreflects : Reflects digest decode history payload)
    (hledger : ∃ seq torn, note digest (ledger digest history) x =
      ⟨some (seq, payload), [], [], (ledger digest history).ever, torn⟩)
    (hwrote : ∀ key, wrote digest key x = none) :
    Restores digest decode (history ++ [x]) := by
  obtain ⟨seq, torn, hledger⟩ := hledger
  intro key
  rw [ledger_concat, hledger, standing_concat, hwrote]
  exact hreflects key

theorem step_restores {event : Event} (h : Restores digest decode history)
    (hprudent : Prudent digest mode decode s history event) :
    Restores digest decode (history ++ [(event, (step digest mode s event).2)]) := by
  obtain ⟨hcareful, hreflects⟩ := hprudent
  have hstepped := stepped digest mode s event
  generalize step digest mode s event = result at hstepped
  cases hstepped with
  | idle hquiet => exact restores_quiet h hquiet
  | closed hquiet => exact restores_quiet h hquiet
  | opened hopen => exact restores_quiet h trivial
  | appended hj hassign =>
    exact restores_appended h hassign (hcareful _ _ _ hj hassign).2.1
  | interrupted hj hassign => exact restores_interrupted h hassign
  | @stored payload j seq hj htip =>
    have hopen : s.journal ≠ none := by rw [hj]; exact Option.some_ne_none _
    exact restores_replaced (hreflects payload (.inl rfl) hopen) ⟨seq, false, rfl⟩ (fun _ ↦ rfl)
  | @replaced payload j seq hj htip =>
    have hopen : s.journal ≠ none := by rw [hj]; exact Option.some_ne_none _
    exact restores_replaced (hreflects payload (.inr rfl) hopen) ⟨seq, _, rfl⟩ (fun _ ↦ rfl)

/-- Whenever the process is stopped, and however often, the map that the next one recovers holds
under every key what the last write to it left there: no acknowledged write is lost, none that was
cut short shows, and a checkpoint changes nothing. -/
theorem recovered_map (events : List Event)
    (hprudent : Throughout (step digest mode) .start (Prudent digest mode decode) events) :
    ∃ recovery,
      Journal.recover digest mode (run (step digest mode) .start events).disk = .ok recovery ∧
        ∀ key, (applyToMap recovery (snapshot decode recovery.checkpoint))[key]? =
          standing digest (answers (step digest mode) .start events) key := by
  have hstart : Kept digest .start [] := by
    refine ⟨[], [], ?_, fun _ hj ↦ by cases hj⟩
    constructor <;> simp [System.start, ledger, Ledger.new, Ledger.baseSeq, Tail]
  obtain ⟨⟨records, tail, hstored, -⟩, hrestores⟩ := invariant_throughout
    (I := fun s history ↦ Kept digest s history ∧ Restores digest decode history)
    (fun s history event hkept hprudent ↦
      ⟨step_kept hkept.1 hprudent.1, step_restores hkept.2 hprudent⟩)
    ⟨hstart, fun _ ↦ ExtTreeMap.getElem?_empty⟩ events hprudent
  obtain ⟨torn, next, hrecover, -⟩ := recover_eq_stored mode hstored
  exact ⟨_, hrecover, hrestores⟩

def single (payload : List UInt8) : Entries := (∅ : Entries).insert "a" payload

theorem recovered_map_after_crash :
    ∃ recovery,
      Journal.recover blank .wraps (run (step blank .wraps) .start [.open, .append .put "a" [1],
        .checkpoint [1], .append .put "b" [2], .appendCrash .delete "a" [] 5]).disk =
          .ok recovery ∧
        ∀ key, (applyToMap recovery (snapshot single recovery.checkpoint))[key]? =
          standing blank (answers (step blank .wraps) .start [.open, .append .put "a" [1],
            .checkpoint [1], .append .put "b" [2], .appendCrash .delete "a" [] 5]) key := by
  apply recovered_map
  have hfirst : Throughout (step blank .wraps) .start (Prudent blank .wraps single)
      ([] ++ [.open] ++ [.append .put "a" [1]] ++ [.checkpoint [1]] ++ [.append .put "b" [2]]) := by
    simp only [throughout_concat]
    refine ⟨⟨⟨⟨throughout_nil, trivial, ?_⟩, ?_, ?_⟩, ?_, ?_⟩, ?_, ?_⟩
    · exact fun _ h ↦ by rcases h with h | h <;> cases h
    · rintro j r j' hj -
      obtain rfl : ⟨1⟩ = j := Option.some.inj hj
      exact ⟨rfl, rfl, by decide⟩
    · exact fun _ h ↦ by rcases h with h | h <;> cases h
    · exact fun _ ↦ by decide
    · rintro payload (h | h) - key
      · cases h
        have hanswers : answers (step blank .wraps) .start ([] ++ [.open] ++
            [.append .put "a" [1]]) =
              [(.open, .opened)] ++ [(.append .put "a" [1], .appended ⟨1, .put, "a", [1]⟩)] := rfl
        rw [hanswers, standing_concat, single, ExtTreeMap.getElem?_insert]
        simp only [wrote, content, Std.compare_eq_iff_eq]
        split
        · rfl
        · exact ExtTreeMap.getElem?_empty
      · cases h
    · rintro j r j' hj -
      obtain rfl : ⟨2⟩ = j := Option.some.inj hj
      exact ⟨rfl, rfl, by decide⟩
    · exact fun _ h ↦ by rcases h with h | h <;> cases h
  refine (throughout_concat (i := .appendCrash .delete "a" [] 5)).mpr ⟨hfirst, ?_, ?_⟩
  · intro j r j' hj hassign hcut
    refine ⟨rfl, fun hlong ↦ ?_⟩
    rw [length_encodeRecord, length_fieldBytes] at hlong
    omega
  · exact fun _ h ↦ by rcases h with h | h <;> cases h

end Aldivine.Persistence.Maps
