import Aldivine.Persistence.Codec

namespace Aldivine.Persistence.Model

open Foundation.Machine Foundation.Text Codec

/-- The two files of the directory, where they exist. -/
structure Disk where
  checkpoint : Option (List UInt8)
  journal : Option (List UInt8)

structure Recovery where
  checkpoint : Option (BitVec 64 × List UInt8)
  replayed : List Record
  tornTailDropped : Bool
  checkpointIgnored : Bool
  nextSeq : BitVec 64

structure Journal where
  nextSeq : BitVec 64

def larger (a b : BitVec 64) : BitVec 64 := if a ≤ b then b else a

variable (digest : List UInt8 → Digest) (mode : Overflow)

def readJournal (disk : Disk) : Outcome PersistError (List Record × Bool × ℕ) :=
  match disk.journal with
  | none => .ok ([], false, 0)
  | some bytes => readRecords digest bytes 0 []

namespace Journal

def validate (key : String) (value : List UInt8) : Except PersistError Unit :=
  if key = "" ∨ (utf8 key).length > maxKeyLen ∨ key.toList.contains (Char.ofNat 0) then
    .error (.badKey ("len " ++ toString (utf8 key).length))
  else if value.length > maxValueLen then .error (.tooLarge value.length)
  else .ok ()

def «open» (disk : Disk) : Outcome PersistError Journal :=
  match readCheckpoint digest disk.checkpoint with
  | .error e => .err e
  | .ok checkpoint =>
    match checkpoint.elim (some 1) (fun base ↦ (mode.add base.1 1).map (larger 1)) with
    | none => .panic
    | some nextSeq =>
      match readJournal digest disk with
      | .err e => .err e
      | .panic => .panic
      | .ok (records, _, _) =>
        match records.foldlM (fun next r ↦ (mode.add r.seq 1).map (larger next)) nextSeq with
        | none => .panic
        | some nextSeq => .ok ⟨nextSeq⟩

/-- `append` up to the write: the record that goes to the file, and the next sequence. -/
def assign (j : Journal) (op : Op) (key : String) (value : List UInt8) :
    Outcome PersistError (Record × Journal) :=
  match validate key value with
  | .error e => .err e
  | .ok () =>
    match mode.add j.nextSeq 1 with
    | none => .panic
    | some next => .ok (⟨j.nextSeq, op, key, value⟩, ⟨next⟩)

/-- The sequence of a checkpoint, `next_seq - 1`. -/
def tip (j : Journal) : Option (BitVec 64) :=
  if j.nextSeq = 0 ∧ mode = .panics then none else some (j.nextSeq - 1)

def recover (disk : Disk) : Outcome PersistError Recovery :=
  match readCheckpoint digest disk.checkpoint with
  | .error e => .err e
  | .ok checkpoint =>
    let baseSeq := checkpoint.elim 0 (·.1)
    match readJournal digest disk with
    | .err e => .err e
    | .panic => .panic
    | .ok (records, torn, _) =>
      let replayed :=
        (records.filter (fun r ↦ r.seq > baseSeq)).mergeSort (fun a b ↦ a.seq ≤ b.seq)
      let top := (replayed.getLast?.map (·.seq)).getD baseSeq
      match mode.add top 1 with
      | none => .panic
      | some nextSeq =>
        .ok ⟨checkpoint, replayed, torn, checkpoint.isNone && disk.checkpoint.isSome, nextSeq⟩

end Journal

/-- `append(true)`: the bytes go to the end of the file, which is made if need be. -/
def Disk.write (disk : Disk) (bytes : List UInt8) : Disk :=
  { disk with journal := some (disk.journal.getD [] ++ bytes) }

/-- The rename that puts a finished checkpoint in place. -/
def Disk.replace (disk : Disk) (seq : BitVec 64) (payload : List UInt8) : Disk :=
  { disk with checkpoint := some (encodeCheckpoint digest seq payload) }

def Disk.truncate (disk : Disk) : Disk := { disk with journal := some [] }

/-- A directory and the journal that the process has open on it, if any. -/
structure System where
  disk : Disk
  journal : Option Journal

/-- A process opens the directory, appends and takes checkpoints, and may be stopped: between two
calls, within an append after `cut` bytes of the record, or between the halves of a checkpoint. -/
inductive Event
  | «open»
  | append (op : Op) (key : String) (value : List UInt8)
  | appendCrash (op : Op) (key : String) (value : List UInt8) (cut : ℕ)
  | checkpoint (payload : List UInt8)
  | checkpointCrash (payload : List UInt8)
  | crash

inductive Reply
  | opened
  | appended (r : Record)
  | interrupted (r : Record)
  | replaced (seq : BitVec 64)
  | failed (e : PersistError)
  | panicked
  | silent

def System.start : System := ⟨⟨none, none⟩, none⟩

def step (s : System) : Event → System × Reply
  | .open =>
    match Journal.open digest mode s.disk with
    | .ok j => (⟨s.disk, some j⟩, .opened)
    | .err e => (⟨s.disk, none⟩, .failed e)
    | .panic => (⟨s.disk, none⟩, .panicked)
  | .append op key value =>
    match s.journal with
    | none => (s, .silent)
    | some j =>
      match j.assign mode op key value with
      | .err e => (s, .failed e)
      | .panic => (s, .panicked)
      | .ok (r, j) => (⟨s.disk.write (encodeRecord digest r), some j⟩, .appended r)
  | .appendCrash op key value cut =>
    match s.journal with
    | none => (s, .silent)
    | some j =>
      match j.assign mode op key value with
      | .ok (r, _) => (⟨s.disk.write ((encodeRecord digest r).take cut), none⟩, .interrupted r)
      | _ => (⟨s.disk, none⟩, .silent)
  | .checkpoint payload =>
    match s.journal with
    | none => (s, .silent)
    | some j =>
      match j.tip mode with
      | none => (s, .panicked)
      | some seq => (⟨(s.disk.replace digest seq payload).truncate, some j⟩, .replaced seq)
  | .checkpointCrash payload =>
    match s.journal with
    | none => (s, .silent)
    | some j =>
      match j.tip mode with
      | none => (⟨s.disk, none⟩, .silent)
      | some seq => (⟨s.disk.replace digest seq payload, none⟩, .replaced seq)
  | .crash => (⟨s.disk, none⟩, .silent)

def Reply.Quiet : Reply → Prop
  | .appended _ | .interrupted _ | .replaced _ => False
  | _ => True

inductive Stepped (s : System) : Event → System × Reply → Prop
  | idle {event reply} (hquiet : reply.Quiet) : Stepped s event (s, reply)
  | closed {event reply} (hquiet : reply.Quiet) : Stepped s event (⟨s.disk, none⟩, reply)
  | opened {j} (hopen : Journal.open digest mode s.disk = .ok j) :
      Stepped s .open (⟨s.disk, some j⟩, .opened)
  | appended {op key value j r j'} (hj : s.journal = some j)
      (hassign : j.assign mode op key value = .ok (r, j')) :
      Stepped s (.append op key value)
        (⟨s.disk.write (encodeRecord digest r), some j'⟩, .appended r)
  | interrupted {op key value cut j r j'} (hj : s.journal = some j)
      (hassign : j.assign mode op key value = .ok (r, j')) :
      Stepped s (.appendCrash op key value cut)
        (⟨s.disk.write ((encodeRecord digest r).take cut), none⟩, .interrupted r)
  | stored {payload j seq} (hj : s.journal = some j) (htip : j.tip mode = some seq) :
      Stepped s (.checkpoint payload)
        (⟨(s.disk.replace digest seq payload).truncate, some j⟩, .replaced seq)
  | replaced {payload j seq} (hj : s.journal = some j) (htip : j.tip mode = some seq) :
      Stepped s (.checkpointCrash payload)
        (⟨s.disk.replace digest seq payload, none⟩, .replaced seq)

theorem stepped (s : System) (event : Event) :
    Stepped digest mode s event (step digest mode s event) := by
  cases event with
  | «open» =>
    simp only [step]
    split
    · exact .opened ‹_›
    · exact .closed trivial
    · exact .closed trivial
  | append op key value =>
    simp only [step]
    split
    · exact .idle trivial
    · split
      · exact .idle trivial
      · exact .idle trivial
      · exact .appended ‹_› ‹_›
  | appendCrash op key value cut =>
    simp only [step]
    split
    · exact .idle trivial
    · split
      · exact .interrupted ‹_› ‹_›
      · exact .closed trivial
  | checkpoint payload =>
    simp only [step]
    split
    · exact .idle trivial
    · split
      · exact .idle trivial
      · exact .stored ‹_› ‹_›
  | checkpointCrash payload =>
    simp only [step]
    split
    · exact .idle trivial
    · split
      · exact .closed trivial
      · exact .replaced ‹_› ‹_›
  | crash => exact .closed trivial

end Aldivine.Persistence.Model
