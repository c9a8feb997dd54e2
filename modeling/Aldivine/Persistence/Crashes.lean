import Aldivine.Foundation.Execution
import Aldivine.Persistence.Model
import Aldivine.Persistence.RoundTrip

namespace Aldivine.Persistence.Crashes

open Foundation.Execution Foundation.Machine Foundation.Text Codec Model RoundTrip

/-- What the outside world knows of a directory: the last checkpoint put in place, what was
acknowledged and what was fully written without being acknowledged since, every sequence ever
acknowledged, and whether the journal ends in the bytes of a record that was cut short. -/
structure Ledger where
  base : Option (BitVec 64 × List UInt8)
  acknowledged : List Record
  unacknowledged : List Record
  ever : List (BitVec 64)
  torn : Bool

def Ledger.new : Ledger := ⟨none, [], [], [], false⟩

def Ledger.baseSeq (l : Ledger) : BitVec 64 := l.base.elim 0 (·.1)

variable (digest : List UInt8 → Digest)

def note (l : Ledger) : Event × Reply → Ledger
  | (.append _ _ _, .appended r) =>
    { l with acknowledged := l.acknowledged ++ [r], ever := l.ever ++ [r.seq] }
  | (.appendCrash _ _ _ cut, .interrupted r) =>
    if cut = 0 then l
    else if cut < (encodeRecord digest r).length then { l with torn := true }
    else { l with unacknowledged := l.unacknowledged ++ [r] }
  | (.checkpoint payload, .replaced seq) => ⟨some (seq, payload), [], [], l.ever, false⟩
  | (.checkpointCrash payload, .replaced seq) => ⟨some (seq, payload), [], [], l.ever, l.torn⟩
  | _ => l

def ledger (history : List (Event × Reply)) : Ledger := history.foldl (note digest) .new

variable (mode : Overflow)

/-- Recovery gives back the last checkpoint and what was acknowledged after it, with at most one
record more, and goes on behind every acknowledged sequence. -/
def Recovers (disk : Disk) (l : Ledger) : Prop :=
  ∃ rec, Journal.recover digest mode disk = .ok rec ∧ rec.checkpoint = l.base ∧
    (rec.replayed = l.acknowledged ∨
      ∃ r ∈ l.unacknowledged, rec.replayed = l.acknowledged ++ [r]) ∧
    ∀ seq ∈ l.ever, seq < rec.nextSeq

/-- No byte is written behind a torn record, no whole record behind an unacknowledged one, no
payload is beyond what recovery accepts, and the sequences do not run out. -/
def Careful (s : System) (history : List (Event × Reply)) : Event → Prop
  | .append op key value => ∀ j r j', s.journal = some j →
      j.assign mode op key value = .ok (r, j') →
      (ledger digest history).torn = false ∧ (ledger digest history).unacknowledged = [] ∧
        j.nextSeq.toNat + 1 < 2 ^ 64
  | .appendCrash op key value cut => ∀ j r j', s.journal = some j →
      j.assign mode op key value = .ok (r, j') → cut ≠ 0 →
      (ledger digest history).torn = false ∧
        ((encodeRecord digest r).length ≤ cut →
          (ledger digest history).unacknowledged = [] ∧ j.nextSeq.toNat + 1 < 2 ^ 64)
  | .checkpoint payload => s.journal ≠ none → payload.length ≤ maxPayloadLen
  | .checkpointCrash payload => s.journal ≠ none → payload.length ≤ maxPayloadLen
  | _ => True

/-- The journal holds the records, and behind them at most one that was cut short. -/
structure Stored (disk : Disk) (l : Ledger) (records : List Record) (tail : List UInt8) : Prop where
  bytes : disk.journal.getD [] = records.flatMap (encodeRecord digest) ++ tail
  cutShort : Tail digest tail
  torn : l.torn = false → tail = []
  valid : ∀ r ∈ records, Valid r
  sorted : records.Pairwise (fun a b ↦ a.seq < b.seq)
  room : ∀ r ∈ records, r.seq.toNat + 1 < 2 ^ 64
  base : disk.checkpoint = l.base.map (fun b ↦ encodeCheckpoint digest b.1 b.2)
  payload : ∀ b ∈ l.base, b.2.length ≤ maxPayloadLen
  baseRoom : l.baseSeq.toNat + 1 < 2 ^ 64
  after : records.filter (fun r ↦ r.seq > l.baseSeq) = l.acknowledged ++ l.unacknowledged
  single : l.unacknowledged.length ≤ 1
  ever : ∀ seq ∈ l.ever, seq ≤ l.baseSeq ∨ ∃ r ∈ records, r.seq = seq

def Ahead (j : Journal) (l : Ledger) (records : List Record) : Prop :=
  l.baseSeq < j.nextSeq ∧ ∀ r ∈ records, r.seq < j.nextSeq

variable {digest mode} {disk : Disk} {l : Ledger} {records : List Record} {tail : List UInt8}

section Reading

theorem readCheckpoint_stored (h : Stored digest disk l records tail) :
    readCheckpoint digest disk.checkpoint = .ok l.base := by
  rw [h.base]
  cases hbase : l.base with
  | none => rfl
  | some b => exact readCheckpoint_encodeCheckpoint (h.payload b (by rw [hbase]; rfl))

theorem readJournal_stored (h : Stored digest disk l records tail) :
    ∃ torn pos, readJournal digest disk = .ok (records, torn, pos) := by
  have hread := readRecords_records 0 [] h.valid h.cutShort
  rw [← h.bytes, List.nil_append] at hread
  unfold readJournal
  cases hjournal : disk.journal with
  | none =>
    rw [hjournal, Option.getD_none, readRecords_nil, Outcome.ok.injEq, Prod.mk.injEq] at hread
    exact ⟨false, 0, by rw [← hread.1]⟩
  | some bytes =>
    rw [hjournal, Option.getD_some] at hread
    exact ⟨_, _, hread⟩

def top (l : Ledger) : BitVec 64 :=
  ((l.acknowledged ++ l.unacknowledged).getLast?.map (·.seq)).getD l.baseSeq

theorem top_stored (h : Stored digest disk l records tail) :
    (top l).toNat + 1 < 2 ^ 64 ∧ l.baseSeq ≤ top l ∧ ∀ r ∈ records, r.seq ≤ top l := by
  have hsorted := h.sorted.filter (fun r ↦ r.seq > l.baseSeq)
  have hmem (r : Record) (hr : r ∈ records) :
      r.seq ≤ l.baseSeq ∨ r ∈ records.filter (fun r ↦ r.seq > l.baseSeq) := by
    by_cases hafter : r.seq > l.baseSeq
    · exact .inr (List.mem_filter.mpr ⟨hr, decide_eq_true hafter⟩)
    · exact .inl (BitVec.not_lt.mp hafter)
  unfold top
  rw [← h.after]
  cases hlast : (records.filter (fun r ↦ r.seq > l.baseSeq)).getLast? with
  | none =>
    refine ⟨h.baseRoom, BitVec.le_refl _, fun r hr ↦ ?_⟩
    refine (hmem r hr).resolve_right (fun hin ↦ ?_)
    rw [List.getLast?_eq_none_iff.mp hlast] at hin
    cases hin
  | some last =>
    obtain ⟨init, hsplit⟩ := List.getLast?_eq_some_iff.mp hlast
    have hin : last ∈ records.filter (fun r ↦ r.seq > l.baseSeq) := by
      rw [hsplit]
      exact List.mem_append_right _ List.mem_cons_self
    obtain ⟨hrec, hafter⟩ := List.mem_filter.mp hin
    have hbase : l.baseSeq < last.seq := of_decide_eq_true hafter
    refine ⟨h.room last hrec, BitVec.le_of_lt hbase, fun r hr ↦ ?_⟩
    rcases hmem r hr with hle | hr
    · exact BitVec.le_trans hle (BitVec.le_of_lt hbase)
    · rw [hsplit] at hr hsorted
      rcases List.mem_append.mp hr with hr | hr
      · exact BitVec.le_of_lt ((List.pairwise_append.mp hsorted).2.2 r hr last List.mem_cons_self)
      · rw [List.mem_singleton.mp hr]
        exact BitVec.le_refl _

variable (mode) in
theorem recover_eq_stored (h : Stored digest disk l records tail) :
    ∃ torn next, Journal.recover digest mode disk =
        .ok ⟨l.base, l.acknowledged ++ l.unacknowledged, torn,
          l.base.isNone && disk.checkpoint.isSome, next⟩ ∧
      next.toNat = (top l).toNat + 1 := by
  obtain ⟨torn, pos, hjournal⟩ := readJournal_stored h
  have hsorted : ((records.filter (fun r ↦ r.seq > l.baseSeq)).mergeSort
      (fun a b ↦ a.seq ≤ b.seq)) = l.acknowledged ++ l.unacknowledged := by
    rw [← h.after]
    refine List.mergeSort_of_pairwise ((h.sorted.filter _).imp ?_)
    intro a b hab
    exact decide_eq_true (BitVec.le_of_lt hab)
  obtain ⟨next, hnext, hsucc⟩ := add_one_of_room mode (top_stored h).1
  refine ⟨torn, next, ?_, hsucc⟩
  unfold Journal.recover
  rw [readCheckpoint_stored h]
  have hbaseSeq : l.base.elim 0 (·.1) = l.baseSeq := rfl
  have htop : (((l.acknowledged ++ l.unacknowledged).getLast?.map (·.seq)).getD l.baseSeq) =
      top l := rfl
  simp only [hjournal, hbaseSeq, hsorted, htop, hnext]

theorem recover_stored (h : Stored digest disk l records tail) : Recovers digest mode disk l := by
  obtain ⟨torn, next, hrecover, hsucc⟩ := recover_eq_stored mode h
  obtain ⟨-, hbase, hall⟩ := top_stored h
  refine ⟨_, hrecover, rfl, ?_, fun seq hseq ↦ ?_⟩
  · cases hextra : l.unacknowledged with
    | nil => exact .inl (List.append_nil _)
    | cons r more =>
      have hsingle := h.single
      rw [hextra, List.length_cons] at hsingle
      obtain rfl := List.length_eq_zero_iff.mp (Nat.le_zero.mp (Nat.le_of_succ_le_succ hsingle))
      exact .inr ⟨r, List.mem_cons_self, rfl⟩
  · rw [BitVec.lt_def, hsucc]
    rcases h.ever seq hseq with hle | ⟨r, hr, rfl⟩
    · exact Nat.lt_succ_of_le (BitVec.le_trans hle hbase)
    · exact Nat.lt_succ_of_le (hall r hr)

theorem larger_spec (a b : BitVec 64) : a ≤ larger a b ∧ b ≤ larger a b := by
  unfold larger
  split
  · exact ⟨‹_›, BitVec.le_refl _⟩
  · exact ⟨BitVec.le_refl _, BitVec.le_of_lt (BitVec.not_le.mp ‹_›)⟩

theorem foldlM_larger {start next : BitVec 64} (hroom : ∀ r ∈ records, r.seq.toNat + 1 < 2 ^ 64)
    (h : records.foldlM (fun next r ↦ (mode.add r.seq 1).map (larger next)) start = some next) :
    start ≤ next ∧ ∀ r ∈ records, r.seq < next := by
  induction records generalizing start with
  | nil =>
    cases h
    exact ⟨BitVec.le_refl _, List.forall_mem_nil _⟩
  | cons r records ih =>
    obtain ⟨hr, hroom⟩ := List.forall_mem_cons.mp hroom
    obtain ⟨succ, hadd, hsucc⟩ := add_one_of_room mode hr
    rw [List.foldlM_cons, hadd] at h
    obtain ⟨hstart, hall⟩ := ih hroom h
    obtain ⟨hle, hle'⟩ := larger_spec start succ
    refine ⟨BitVec.le_trans hle hstart, List.forall_mem_cons.mpr ⟨?_, hall⟩⟩
    have hnext := BitVec.le_trans hle' hstart
    rw [BitVec.le_def, hsucc] at hnext
    exact BitVec.lt_def.mpr hnext

theorem open_stored {j : Journal} (h : Stored digest disk l records tail)
    (hopen : Journal.open digest mode disk = .ok j) : Ahead j l records := by
  obtain ⟨torn, pos, hjournal⟩ := readJournal_stored h
  unfold Journal.open at hopen
  rw [readCheckpoint_stored h] at hopen
  simp only [hjournal] at hopen
  split at hopen
  · cases hopen
  · rename_i start hstart
    split at hopen
    · cases hopen
    · rename_i next hnext
      cases hopen
      obtain ⟨hle, hall⟩ := foldlM_larger h.room hnext
      refine ⟨BitVec.lt_def.mpr (Nat.lt_of_lt_of_le ?_ hle), hall⟩
      have hroom := h.baseRoom
      unfold Ledger.baseSeq at hroom ⊢
      cases hbase : l.base with
      | none =>
        rw [hbase] at hstart
        cases hstart
        decide
      | some b =>
        rw [hbase, Option.elim_some] at hstart hroom
        obtain ⟨succ, hadd, hsucc⟩ := add_one_of_room mode hroom
        rw [hadd, Option.map_some] at hstart
        cases hstart
        refine Nat.lt_of_lt_of_le ?_ (larger_spec 1 succ).2
        rw [hsucc]
        exact Nat.lt_succ_self _

end Reading

section Writing

variable {r : Record} {l' : Ledger}

theorem stored_write (h : Stored digest disk l records tail) (htorn : l.torn = false)
    (hr : Valid r) (hroom : r.seq.toNat + 1 < 2 ^ 64) (hbase : l.baseSeq < r.seq)
    (habove : ∀ r' ∈ records, r'.seq < r.seq) (hl' : l'.base = l.base)
    (hafter : l'.acknowledged ++ l'.unacknowledged = l.acknowledged ++ l.unacknowledged ++ [r])
    (hsingle : l'.unacknowledged.length ≤ 1)
    (hever : ∀ seq ∈ l'.ever, seq ∈ l.ever ∨ seq = r.seq) :
    Stored digest (disk.write (encodeRecord digest r)) l' (records ++ [r]) [] := by
  have hbaseSeq : l'.baseSeq = l.baseSeq := by rw [Ledger.baseSeq, hl', Ledger.baseSeq]
  constructor
  · rw [Disk.write, Option.getD_some, h.bytes, h.torn htorn, List.append_nil, List.append_nil,
      List.flatMap_append, List.flatMap_singleton]
  · exact .inl rfl
  · exact fun _ ↦ rfl
  · exact List.forall_mem_append.mpr ⟨h.valid, List.forall_mem_singleton.mpr hr⟩
  · refine List.pairwise_append.mpr ⟨h.sorted, List.pairwise_singleton _ _, fun a ha b hb ↦ ?_⟩
    rw [List.mem_singleton.mp hb]
    exact habove a ha
  · exact List.forall_mem_append.mpr ⟨h.room, List.forall_mem_singleton.mpr hroom⟩
  · rw [hl']
    exact h.base
  · rw [hl']
    exact h.payload
  · rw [hbaseSeq]
    exact h.baseRoom
  · rw [hbaseSeq, List.filter_append, h.after, hafter]
    simp [hbase]
  · exact hsingle
  · intro seq hseq
    rw [hbaseSeq]
    rcases hever seq hseq with hseq | rfl
    · rcases h.ever seq hseq with hle | ⟨r', hr', heq⟩
      · exact .inl hle
      · exact .inr ⟨r', List.mem_append_left _ hr', heq⟩
    · exact .inr ⟨r, List.mem_append_right _ List.mem_cons_self, rfl⟩

theorem stored_write_cut {cut : ℕ} (h : Stored digest disk l records tail) (htorn : l.torn = false)
    (hr : Valid r) (hcut : cut < (encodeRecord digest r).length) :
    Stored digest (disk.write ((encodeRecord digest r).take cut)) { l with torn := true } records
      ((encodeRecord digest r).take cut) := by
  have hbytes := h.bytes
  rw [h.torn htorn, List.append_nil] at hbytes
  refine { h with bytes := ?_, cutShort := .inr ⟨r, hr, List.take_prefix _ _, ?_⟩, torn := ?_ }
  · rw [Disk.write, Option.getD_some, hbytes]
  · intro heq
    have hlen := congrArg List.length heq
    rw [List.length_take] at hlen
    omega
  · exact fun htrue ↦ by cases htrue

theorem stored_write_nothing (h : Stored digest disk l records tail) :
    Stored digest (disk.write []) l records tail := by
  refine { h with bytes := ?_ }
  rw [Disk.write, Option.getD_some, List.append_nil]
  exact h.bytes

theorem stored_replace {j : Journal} {seq : BitVec 64} {payload : List UInt8}
    (h : Stored digest disk l records tail) (hahead : Ahead j l records)
    (htip : j.tip mode = some seq) (hpayload : payload.length ≤ maxPayloadLen) :
    seq < j.nextSeq ∧ (∀ r ∈ records, r.seq ≤ seq) ∧ (∀ q ∈ l.ever, q ≤ seq) ∧
      Stored digest (disk.replace digest seq payload) ⟨some (seq, payload), [], [], l.ever, l.torn⟩
        records tail := by
  have hpos : 0 < j.nextSeq.toNat := Nat.lt_of_le_of_lt (Nat.zero_le _) hahead.1
  have hseq : seq.toNat + 1 = j.nextSeq.toNat := by
    unfold Journal.tip at htip
    split at htip
    · cases htip
    · cases htip
      have hone : (1 : BitVec 64) ≤ j.nextSeq := BitVec.le_def.mpr hpos
      rw [BitVec.toNat_sub_of_le hone]
      exact Nat.succ_pred_eq_of_pos hpos
  have hbelow {q : BitVec 64} (hq : q < j.nextSeq) : q ≤ seq := by
    rw [BitVec.lt_def, ← hseq] at hq
    exact Nat.le_of_lt_succ hq
  have hrecords : ∀ r ∈ records, r.seq ≤ seq := fun r hr ↦ hbelow (hahead.2 r hr)
  have hever : ∀ q ∈ l.ever, q ≤ seq := by
    intro q hq
    rcases h.ever q hq with hle | ⟨r, hr, rfl⟩
    · exact BitVec.le_trans hle (hbelow hahead.1)
    · exact hrecords r hr
  have hlt := j.nextSeq.isLt
  rw [← hseq] at hlt
  have hcovered : records.filter (fun r ↦ r.seq > seq) = [] := by
    rw [List.filter_eq_nil_iff]
    intro r hr
    rw [decide_eq_true_iff]
    exact BitVec.not_lt.mpr (hrecords r hr)
  refine ⟨?_, hrecords, hever, ?_⟩
  · rw [BitVec.lt_def, ← hseq]
    exact Nat.lt_succ_self _
  · exact { h with
      base := rfl
      payload := fun b hb ↦ by cases hb; exact hpayload
      baseRoom := hlt
      after := hcovered
      single := Nat.zero_le _
      ever := fun q hq ↦ .inl (hever q hq) }

theorem stored_truncate {base : BitVec 64 × List UInt8} {ever : List (BitVec 64)} {torn : Bool}
    (h : Stored digest disk ⟨some base, [], [], ever, torn⟩ records tail)
    (hever : ∀ q ∈ ever, q ≤ base.1) :
    Stored digest disk.truncate ⟨some base, [], [], ever, false⟩ [] [] where
  bytes := rfl
  cutShort := .inl rfl
  torn _ := rfl
  valid := List.forall_mem_nil _
  sorted := .nil
  room := List.forall_mem_nil _
  base := h.base
  payload := h.payload
  baseRoom := h.baseRoom
  after := rfl
  single := Nat.zero_le _
  ever q hq := .inl (hever q hq)

end Writing

section Steps

variable {s : System} {history : List (Event × Reply)}

theorem ledger_concat {x : Event × Reply} :
    ledger digest (history ++ [x]) = note digest (ledger digest history) x := by
  rw [ledger, List.foldl_append]
  rfl

theorem assign_spec {j j' : Journal} {op : Op} {key : String} {value : List UInt8} {r : Record}
    (h : j.assign mode op key value = .ok (r, j')) :
    r.seq = j.nextSeq ∧ mode.add j.nextSeq 1 = some j'.nextSeq ∧
      (j.nextSeq ≠ 0 → Valid r) := by
  unfold Journal.assign at h
  split at h
  · cases h
  · rename_i hok
    split at h
    · cases h
    · rename_i next hnext
      cases h
      exact ⟨rfl, hnext, fun hseq ↦ valid_of_validate hseq hok⟩

/-- The directory is in order, and so is the journal that is open on it. -/
def Kept (digest : List UInt8 → Digest) (s : System) (history : List (Event × Reply)) : Prop :=
  ∃ records tail, Stored digest s.disk (ledger digest history) records tail ∧
    ∀ j, s.journal = some j → Ahead j (ledger digest history) records

theorem note_quiet {event : Event} {reply : Reply} (hquiet : reply.Quiet) :
    note digest l (event, reply) = l := by
  cases reply with
  | appended r => cases hquiet
  | interrupted r => cases hquiet
  | replaced seq => cases hquiet
  | opened => cases event <;> rfl
  | failed e => cases event <;> rfl
  | panicked => cases event <;> rfl
  | silent => cases event <;> rfl

theorem note_interrupted {op : Op} {key : String} {value : List UInt8} {cut : ℕ} {r : Record} :
    note digest l (.appendCrash op key value cut, .interrupted r) =
      if cut = 0 then l
      else if cut < (encodeRecord digest r).length then { l with torn := true }
      else { l with unacknowledged := l.unacknowledged ++ [r] } := rfl

theorem Ahead.pos {j : Journal} (h : Ahead j l records) : j.nextSeq ≠ 0 := by
  intro hzero
  have hlt := h.1
  rw [hzero] at hlt
  exact Nat.not_lt_zero _ hlt

section Appends

variable {j j' : Journal} {op : Op} {key : String} {value : List UInt8} {r : Record}

/-- An acknowledged record goes behind everything, and the journal moves on behind it. -/
theorem stored_appended (hstored : Stored digest disk l records tail) (hahead : Ahead j l records)
    (hassign : j.assign mode op key value = .ok (r, j')) (htorn : l.torn = false)
    (hextra : l.unacknowledged = []) (hroom : j.nextSeq.toNat + 1 < 2 ^ 64) :
    Stored digest (disk.write (encodeRecord digest r))
        (note digest l (.append op key value, .appended r)) (records ++ [r]) [] ∧
      Ahead j' (note digest l (.append op key value, .appended r)) (records ++ [r]) := by
  obtain ⟨hseq, hnext, hvalid⟩ := assign_spec hassign
  have hsucc : j'.nextSeq.toNat = j.nextSeq.toNat + 1 := word_exact hnext (fun _ ↦ hroom)
  have hlt {q : BitVec 64} (hq : q ≤ j.nextSeq) : q < j'.nextSeq := by
    rw [BitVec.lt_def, hsucc]
    exact Nat.lt_succ_of_le hq
  constructor
  · refine stored_write hstored htorn (hvalid hahead.pos) (hseq ▸ hroom) (hseq ▸ hahead.1)
      (hseq ▸ hahead.2) rfl ?_ hstored.single (fun q hq ↦ ?_)
    · simp only [note, hextra, List.append_nil]
    · simpa [note] using hq
  · refine ⟨hlt (BitVec.le_of_lt hahead.1), ?_⟩
    refine List.forall_mem_append.mpr ⟨fun r' hr' ↦ hlt (BitVec.le_of_lt (hahead.2 r' hr')), ?_⟩
    exact List.forall_mem_singleton.mpr (hlt (hseq ▸ BitVec.le_refl _))

/-- Wherever an append is cut, the directory stays in order. -/
theorem stored_interrupted {cut : ℕ} (hstored : Stored digest disk l records tail)
    (hahead : Ahead j l records) (hassign : j.assign mode op key value = .ok (r, j'))
    (hcareful : cut ≠ 0 → l.torn = false ∧ ((encodeRecord digest r).length ≤ cut →
      l.unacknowledged = [] ∧ j.nextSeq.toNat + 1 < 2 ^ 64)) :
    ∃ records tail, Stored digest (disk.write ((encodeRecord digest r).take cut))
      (note digest l (.appendCrash op key value cut, .interrupted r)) records tail := by
  obtain ⟨hseq, -, hvalid⟩ := assign_spec hassign
  have hr := hvalid hahead.pos
  rw [note_interrupted]
  split
  · rename_i hzero
    rw [hzero, List.take_zero]
    exact ⟨records, tail, stored_write_nothing hstored⟩
  · rename_i hcut
    obtain ⟨htorn, hwhole⟩ := hcareful hcut
    split
    · rename_i hshort
      exact ⟨records, _, stored_write_cut hstored htorn hr hshort⟩
    · rename_i hlong
      obtain ⟨hextra, hroom⟩ := hwhole (Nat.le_of_not_lt hlong)
      rw [List.take_of_length_le (Nat.le_of_not_lt hlong)]
      refine ⟨records ++ [r], [], ?_⟩
      refine stored_write hstored htorn hr (hseq ▸ hroom) (hseq ▸ hahead.1) (hseq ▸ hahead.2) rfl
        ?_ ?_ (fun q hq ↦ .inl hq)
      · rw [List.append_assoc]
      · rw [hextra]
        exact Nat.le_refl 1

end Appends

theorem step_kept {event : Event} (hkept : Kept digest s history)
    (hcareful : Careful digest mode s history event) :
    Kept digest (step digest mode s event).1
      (history ++ [(event, (step digest mode s event).2)]) := by
  obtain ⟨records, tail, hstored, hahead⟩ := hkept
  have hstepped := stepped digest mode s event
  generalize step digest mode s event = result at hstepped
  unfold Kept
  rw [ledger_concat]
  cases hstepped with
  | idle hquiet =>
    rw [note_quiet hquiet]
    exact ⟨records, tail, hstored, hahead⟩
  | closed hquiet =>
    rw [note_quiet hquiet]
    exact ⟨records, tail, hstored, fun _ hj ↦ by cases hj⟩
  | opened hopen =>
    refine ⟨records, tail, hstored, fun j hj ↦ ?_⟩
    cases hj
    exact open_stored hstored hopen
  | @appended op key value j r j' hj hassign =>
    obtain ⟨htorn, hextra, hroom⟩ := hcareful j r j' hj hassign
    obtain ⟨hwritten, hnext⟩ := stored_appended hstored (hahead j hj) hassign htorn hextra hroom
    refine ⟨records ++ [r], [], hwritten, fun j'' hj'' ↦ ?_⟩
    cases hj''
    exact hnext
  | @interrupted op key value cut j r j' hj hassign =>
    obtain ⟨records', tail', hwritten⟩ := stored_interrupted hstored (hahead j hj) hassign
      (hcareful j r j' hj hassign)
    exact ⟨records', tail', hwritten, fun _ hj' ↦ by cases hj'⟩
  | @stored payload j seq hj htip =>
    have hpayload := hcareful (by rw [hj]; exact Option.some_ne_none _)
    obtain ⟨hlt, -, hever, hreplaced⟩ := stored_replace hstored (hahead j hj) htip hpayload
    refine ⟨[], [], stored_truncate hreplaced hever, fun j' hj' ↦ ?_⟩
    cases hj'
    exact ⟨hlt, List.forall_mem_nil _⟩
  | @replaced payload j seq hj htip =>
    have hpayload := hcareful (by rw [hj]; exact Option.some_ne_none _)
    obtain ⟨-, -, -, hreplaced⟩ := stored_replace hstored (hahead j hj) htip hpayload
    exact ⟨records, tail, hreplaced, fun _ hj' ↦ by cases hj'⟩

/-- In every run of careful steps, whatever the crashes, recovery gives back what it should. -/
theorem careful_runs_recover (events : List Event)
    (hcareful : Throughout (step digest mode) .start (Careful digest mode) events) :
    Recovers digest mode (run (step digest mode) .start events).disk
      (ledger digest (answers (step digest mode) .start events)) := by
  have hstart : Kept digest .start [] := by
    refine ⟨[], [], ?_, fun _ hj ↦ by cases hj⟩
    constructor <;> simp [System.start, ledger, Ledger.new, Ledger.baseSeq, Tail]
  obtain ⟨records, tail, hstored, -⟩ := invariant_throughout (I := Kept digest)
    (fun s history event hkept hcareful ↦ step_kept hkept hcareful) hstart events hcareful
  exact recover_stored hstored

end Steps

section Runs

theorem length_blankSum : (List.replicate 32 (0 : UInt8)).length = 32 := List.length_replicate

def blank : List UInt8 → Digest := fun _ ↦ ⟨List.replicate 32 0, length_blankSum⟩

theorem crash_after_checkpoint_recovers :
    Recovers blank .wraps
      (run (step blank .wraps) .start [.open, .append .put "a" [1], .checkpoint [9],
        .append .put "b" [2], .appendCrash .delete "a" [] 5]).disk
      (ledger blank (answers (step blank .wraps) .start [.open, .append .put "a" [1],
        .checkpoint [9], .append .put "b" [2], .appendCrash .delete "a" [] 5])) := by
  apply careful_runs_recover
  have hfirst : Throughout (step blank .wraps) .start (Careful blank .wraps)
      ([] ++ [.open] ++ [.append .put "a" [1]] ++ [.checkpoint [9]] ++ [.append .put "b" [2]]) := by
    simp only [throughout_concat]
    refine ⟨⟨⟨⟨throughout_nil, trivial⟩, ?_⟩, ?_⟩, ?_⟩
    · rintro j r j' hj -
      obtain rfl : ⟨1⟩ = j := Option.some.inj hj
      exact ⟨rfl, rfl, by decide⟩
    · exact fun _ ↦ by decide
    · rintro j r j' hj -
      obtain rfl : ⟨2⟩ = j := Option.some.inj hj
      exact ⟨rfl, rfl, by decide⟩
  refine (throughout_concat (i := .appendCrash .delete "a" [] 5)).mpr ⟨hfirst, ?_⟩
  intro j r j' hj hassign hcut
  refine ⟨rfl, fun hlong ↦ ?_⟩
  rw [length_encodeRecord, length_fieldBytes] at hlong
  omega

theorem encodeRecord_short (digest : List UInt8 → Digest) {r : Record}
    (hlen : (utf8 r.key).length + r.value.length = 2) :
    ∃ rest, encodeRecord digest r = 0 :: 0 :: 0 :: rest := by
  have hbody : (fieldBytes r ++ (digest (fieldBytes r)).1).length = 49 := by
    rw [List.length_append, length_fieldBytes, (digest _).2]
    omega
  refine ⟨49 :: (fieldBytes r ++ (digest (fieldBytes r)).1), ?_⟩
  simp only [encodeRecord]
  rw [hbody]
  rfl

/-- One byte of a record that was cut short is enough: the next append is acknowledged, and with it
recovery panics, whatever the digest. -/
theorem append_after_tear_lost :
    ¬∃ digest, Recovers digest .wraps
      (run (step digest .wraps) .start [.open, .appendCrash .put "a" [1] 1, .open,
        .append .put "b" [2]]).disk
      (ledger digest (answers (step digest .wraps) .start [.open, .appendCrash .put "a" [1] 1,
        .open, .append .put "b" [2]])) := by
  rintro ⟨digest, rec, hrec, -⟩
  obtain ⟨first, hfirst⟩ := encodeRecord_short digest (r := ⟨1, .put, "a", [1]⟩) rfl
  obtain ⟨second, hsecond⟩ := encodeRecord_short digest (r := ⟨1, .put, "b", [2]⟩) rfl
  have htear : (step digest .wraps ⟨⟨none, none⟩, some ⟨1⟩⟩ (.appendCrash .put "a" [1] 1)).1 =
      ⟨⟨none, some [0]⟩, none⟩ := by
    have hbytes : (encodeRecord digest ⟨1, .put, "a", [1]⟩).take 1 = [0] := by
      rw [hfirst]
      rfl
    exact congrArg (fun bytes ↦ System.mk ⟨none, some bytes⟩ none) hbytes
  have hopen : (step digest .wraps ⟨⟨none, some [0]⟩, none⟩ .open).1 =
      ⟨⟨none, some [0]⟩, some ⟨1⟩⟩ := by
    have hread : readJournal digest ⟨none, some [0]⟩ = .ok ([], true, 0) :=
      readRecords_torn (List.cons_ne_nil _ _) rfl
    simp only [step, Journal.open, readCheckpoint, hread]
    rfl
  have hdisk : (run (step digest .wraps) .start [.open, .appendCrash .put "a" [1] 1, .open,
      .append .put "b" [2]]).disk =
        ⟨none, some (0 :: encodeRecord digest ⟨1, .put, "b", [2]⟩)⟩ := by
    have hrun : run (step digest .wraps) .start [.open, .appendCrash .put "a" [1] 1, .open,
        .append .put "b" [2]] = (step digest .wraps (step digest .wraps (step digest .wraps
          ⟨⟨none, none⟩, some ⟨1⟩⟩ (.appendCrash .put "a" [1] 1)).1 .open).1
            (.append .put "b" [2])).1 := rfl
    rw [hrun, htear, hopen]
    rfl
  have hpanic : readJournal digest ⟨none, some (0 :: encodeRecord digest ⟨1, .put, "b", [2]⟩)⟩ =
      .panic := by
    rw [hsecond]
    exact readRecords_panic (List.cons_ne_nil _ _) (decodeRecord_zeros second)
  rw [hdisk] at hrec
  simp only [Journal.recover, readCheckpoint, hpanic] at hrec
  cases hrec

end Runs

end Aldivine.Persistence.Crashes
