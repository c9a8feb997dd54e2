import Mathlib.Algebra.Order.Ring.Nat
import Mathlib.Data.List.Basic
import Mathlib.Data.Nat.Notation
import Mathlib.Logic.Function.Basic

namespace Aldivine.Downloads.Lanes

inductive Lane
  | joinCritical
  | spawnCritical
  | foreground
  | background
  | optional
deriving DecidableEq

def Lane.weight : Lane → BitVec 64
  | joinCritical => 8
  | spawnCritical => 4
  | foreground => 2
  | background => 1
  | optional => 1

def Lane.all : List Lane := [.joinCritical, .spawnCritical, .foreground, .background, .optional]

/-- A lane without an entry in `queues` is as one with an empty queue. -/
structure LaneScheduler where
  queues : Lane → List (BitVec 64)
  pos : ℕ
  remaining : Lane → Option (BitVec 64)
  served : Lane → BitVec 64

namespace LaneScheduler

def new : LaneScheduler := ⟨fun _ ↦ [], 0, fun _ ↦ none, fun _ ↦ 0⟩

def enqueue (s : LaneScheduler) (lane : Lane) (job : BitVec 64) : LaneScheduler :=
  { s with queues := Function.update s.queues lane (s.queues lane ++ [job]) }

def pending (s : LaneScheduler) (lane : Lane) : ℕ := (s.queues lane).length

def totalPending (s : LaneScheduler) : ℕ := (Lane.all.map s.pending).sum

/-- `order[self.pos % order.len()]`. -/
def current (s : LaneScheduler) : Lane :=
  Lane.all.get ⟨s.pos % Lane.all.length, Nat.mod_lt _ (by decide)⟩

def passOn (s : LaneScheduler) (lane : Lane) : LaneScheduler :=
  { s with
      remaining := Function.update s.remaining lane none
      pos := (s.pos + 1) % Lane.all.length }

/-- The body of the loop of `pop_next` where the current lane has `job` at its front. -/
def serve (s : LaneScheduler) (lane : Lane) (jobs : List (BitVec 64)) : LaneScheduler :=
  let rem := (s.remaining lane).getD lane.weight - 1
  let s := { s with queues := Function.update s.queues lane jobs }
  let s := if s.pending lane = 0 ∨ rem = 0 then s.passOn lane
    else { s with remaining := Function.update s.remaining lane (some rem) }
  { s with served := Function.update s.served lane (s.served lane + 1) }

/-- At most `n` iterations of the loop of `pop_next`. -/
def visit : ℕ → LaneScheduler → LaneScheduler × Option (Lane × BitVec 64)
  | 0, s => (s, none)
  | n + 1, s =>
    match s.queues s.current with
    | [] => visit n (s.passOn s.current)
    | job :: jobs => (s.serve s.current jobs, some (s.current, job))

def popNext (s : LaneScheduler) : LaneScheduler × Option (Lane × BitVec 64) :=
  if s.totalPending = 0 then ({ s with pos := 0, remaining := fun _ ↦ none }, none)
  else visit Lane.all.length s

end LaneScheduler

inductive Call
  | enqueue (lane : Lane) (job : BitVec 64)
  | popNext
deriving DecidableEq

def step (s : LaneScheduler) : Call → LaneScheduler × Option (Lane × BitVec 64)
  | .enqueue lane job => (s.enqueue lane job, none)
  | .popNext => s.popNext

end Aldivine.Downloads.Lanes

namespace Aldivine.Downloads.Model

inductive DownloadError
  | badPlan (fileLen chunkLen : BitVec 64)
  | outOfBounds (offset : BitVec 64) (len : ℕ) (fileLen : BitVec 64)
deriving DecidableEq

structure ChunkPlan where
  fileLen : BitVec 64
  chunkLen : BitVec 64
  chunkCount : BitVec 64
deriving DecidableEq

/-- `chunk_count` is `div_ceil`, which does not overflow. -/
def ChunkPlan.new (fileLen chunkLen : BitVec 64) : Except DownloadError ChunkPlan :=
  if fileLen = 0 ∨ chunkLen = 0 then .error (.badPlan fileLen chunkLen)
  else .ok ⟨fileLen, chunkLen,
    BitVec.ofNat 64 ((fileLen.toNat + chunkLen.toNat - 1) / chunkLen.toNat)⟩

structure Download where
  plan : ChunkPlan
  bytes : List UInt8
  covered : List Bool
  receivedBytes : BitVec 64
  lastProgressTick : BitVec 64
deriving DecidableEq

/-- The loop of `receive` from position `pos` on: the bytes, the bitmap and the count of fresh
bytes. -/
def writeBytes : ℕ → List UInt8 → List UInt8 × List Bool × ℕ → List UInt8 × List Bool × ℕ
  | _, [], buffers => buffers
  | pos, byte :: data, (bytes, covered, fresh) =>
    writeBytes (pos + 1) data
      (bytes.set pos byte, covered.set pos true,
        if covered.getD pos false then fresh else fresh + 1)

/-- One byte of the loop of `missing_ranges`: the finished runs and the one that is open. -/
def scanByte (runs : List (ℕ × ℕ) × Option (ℕ × ℕ)) (byte : Bool × ℕ) :
    List (ℕ × ℕ) × Option (ℕ × ℕ) :=
  match byte.1, runs.2 with
  | true, some run => (runs.1 ++ [run], none)
  | true, none => runs
  | false, some (start, len) => (runs.1, some (start, len + 1))
  | false, none => (runs.1, some (byte.2, 1))

namespace Download

def new (plan : ChunkPlan) (nowTick : BitVec 64) : Download where
  plan := plan
  bytes := List.replicate plan.fileLen.toNat 0
  covered := List.replicate plan.fileLen.toNat false
  receivedBytes := 0
  lastProgressTick := nowTick

def isComplete (d : Download) : Bool := d.receivedBytes == d.plan.fileLen

def receive (d : Download) (offset : BitVec 64) (data : List UInt8) (nowTick : BitVec 64) :
    Download × Except DownloadError Unit :=
  if d.isComplete then (d, .error (.outOfBounds offset data.length d.plan.fileLen))
  else if offset.toNat + data.length ≥ 2 ^ 64 then
    -- `checked_add` gives nothing
    (d, .error (.outOfBounds offset data.length d.plan.fileLen))
  else if offset.toNat + data.length > d.plan.fileLen.toNat then
    (d, .error (.outOfBounds offset data.length d.plan.fileLen))
  else if data.isEmpty then (d, .ok ())
  else
    let (bytes, covered, fresh) := writeBytes offset.toNat data (d.bytes, d.covered, 0)
    if fresh > 0 then
      ({ d with
          bytes := bytes
          covered := covered
          receivedBytes := d.receivedBytes + BitVec.ofNat 64 fresh
          lastProgressTick := nowTick }, .ok ())
    else ({ d with bytes := bytes, covered := covered }, .ok ())

def missingRanges (d : Download) : List (ℕ × ℕ) :=
  let (out, run) := d.covered.zipIdx.foldl scanByte ([], none)
  out ++ run.toList

def assembled (d : Download) : Option (List UInt8) :=
  if d.isComplete then some d.bytes else none

end Download

structure Call where
  offset : BitVec 64
  data : List UInt8
  nowTick : BitVec 64

def step (d : Download) (call : Call) : Download × Except DownloadError Unit :=
  d.receive call.offset call.data call.nowTick

end Aldivine.Downloads.Model
