import Aldivine.Foundation.Locate
import Aldivine.Foundation.Text

namespace Aldivine.AdmissionQueue.Model

open Foundation.Locate Foundation.Text

inductive QueueError
  | tooManyReserved (max reserved : ℕ)
deriving DecidableEq

structure QueueConfig where
  maxPlayers : ℕ
  reservedSlots : ℕ
  maxQueueLen : ℕ
  staleAfterMs : UInt64
deriving DecidableEq

def QueueConfig.new (maxPlayers reservedSlots maxQueueLen : ℕ) (staleAfterMs : UInt64) :
    Except QueueError QueueConfig :=
  if reservedSlots > maxPlayers then .error (.tooManyReserved maxPlayers reservedSlots)
  else .ok ⟨maxPlayers, reservedSlots, maxQueueLen, staleAfterMs⟩

/-- Playing slots a player without a reservation may occupy. -/
def QueueConfig.openSlots (c : QueueConfig) : ℕ := c.maxPlayers - c.reservedSlots

structure JoinRequest where
  id : String
  holdsReservation : Bool
deriving DecidableEq

inductive RejectReason
  | serverFull
  | queueFull
  | alreadyPresent
  | invalidId
deriving DecidableEq

inductive JoinOutcome
  | admitted
  | queued (position : ℕ)
  | rejected (reason : RejectReason)
deriving DecidableEq

structure QueuedEntry where
  id : String
  holdsReservation : Bool
  enqueuedAtMs : UInt64
deriving DecidableEq

structure Queue where
  config : QueueConfig
  playing : List QueuedEntry
  waitlist : List QueuedEntry
deriving DecidableEq

namespace Queue

def new (config : QueueConfig) : Queue := ⟨config, [], []⟩

def playingCount (q : Queue) : ℕ := q.playing.length

def queueLen (q : Queue) : ℕ := q.waitlist.length

def isPlaying (q : Queue) (id : String) : Bool := q.playing.any (·.id == id)

def isQueued (q : Queue) (id : String) : Bool := q.waitlist.any (·.id == id)

/-- The 1-based waitlist position. -/
def position (q : Queue) (id : String) : Option ℕ :=
  (locate (·.id == id) q.waitlist).map (fun r ↦ r.before.length + 1)

def slotFreeFor (q : Queue) (holdsReservation : Bool) : Bool :=
  if holdsReservation then q.playing.length < q.config.maxPlayers
  else q.playing.length < q.config.openSlots

def join (q : Queue) (req : JoinRequest) (nowMs : UInt64) : Queue × JoinOutcome :=
  if isBlank req.id then (q, .rejected .invalidId)
  else if q.isPlaying req.id || q.isQueued req.id then (q, .rejected .alreadyPresent)
  else if q.slotFreeFor req.holdsReservation then
    ({ q with playing := q.playing ++ [⟨req.id, req.holdsReservation, nowMs⟩] }, .admitted)
  else if q.waitlist.length < q.config.maxQueueLen then
    let waitlist := q.waitlist ++ [⟨req.id, req.holdsReservation, nowMs⟩]
    ({ q with waitlist := waitlist }, .queued waitlist.length)
  else if q.config.maxQueueLen == 0 then (q, .rejected .serverFull)
  else (q, .rejected .queueFull)

/-- Scan front to back and admit the first entry the reservation rule allows. -/
def promoteFrontFit (q : Queue) : Queue × Option String :=
  match locate (fun e ↦ q.slotFreeFor e.holdsReservation) q.waitlist with
  | none => (q, none)
  | some r =>
    ({ q with playing := q.playing ++ [r.found], waitlist := r.rest }, some r.found.id)

def playingLeave (q : Queue) (id : String) : Queue × Option String :=
  match locate (·.id == id) q.playing with
  | none => (q, none)
  | some r => promoteFrontFit { q with playing := r.rest }

def queueLeave (q : Queue) (id : String) : Queue × Bool :=
  match locate (·.id == id) q.waitlist with
  | none => (q, false)
  | some r => ({ q with waitlist := r.rest }, true)

def isStale (q : Queue) (nowMs : UInt64) (e : QueuedEntry) : Bool :=
  nowMs.toNat - e.enqueuedAtMs.toNat > q.config.staleAfterMs.toNat

def expireStale (q : Queue) (nowMs : UInt64) : Queue × List String :=
  if q.config.staleAfterMs == 0 then (q, [])
  else
    ({ q with waitlist := q.waitlist.filter (fun e ↦ !q.isStale nowMs e) },
      (q.waitlist.filter (q.isStale nowMs)).map (·.id))

def playingIds (q : Queue) : List String := q.playing.map (·.id)

def waitlistIds (q : Queue) : List String := q.waitlist.map (·.id)

@[simp] theorem isPlaying_iff {q : Queue} {id : String} :
    q.isPlaying id = true ↔ id ∈ q.playingIds := by
  simp [isPlaying, playingIds]

@[simp] theorem isQueued_iff {q : Queue} {id : String} :
    q.isQueued id = true ↔ id ∈ q.waitlistIds := by
  simp [isQueued, waitlistIds]

def Admits (q : Queue) (req : JoinRequest) : Prop :=
  isBlank req.id = false ∧ req.id ∉ q.playingIds ∧ req.id ∉ q.waitlistIds ∧
    q.slotFreeFor req.holdsReservation = true

instance (q : Queue) (req : JoinRequest) : Decidable (q.Admits req) :=
  inferInstanceAs (Decidable (_ ∧ _ ∧ _ ∧ _))

/-- Everything a join can do: it admits, waitlists, or refuses and changes nothing. -/
theorem join_cases (q : Queue) (req : JoinRequest) (nowMs : UInt64) :
    (q.Admits req ∧ q.join req nowMs =
      ({ q with playing := q.playing ++ [⟨req.id, req.holdsReservation, nowMs⟩] }, .admitted)) ∨
    (¬q.Admits req ∧ isBlank req.id = false ∧ req.id ∉ q.playingIds ∧ req.id ∉ q.waitlistIds ∧
      q.waitlist.length < q.config.maxQueueLen ∧
      q.join req nowMs = ({ q with
        waitlist := q.waitlist ++ [⟨req.id, req.holdsReservation, nowMs⟩] },
        .queued (q.waitlist.length + 1))) ∨
    (¬q.Admits req ∧ ∃ reason, q.join req nowMs = (q, .rejected reason)) := by
  have hpresent : (q.isPlaying req.id || q.isQueued req.id) = true ↔
      req.id ∈ q.playingIds ∨ req.id ∈ q.waitlistIds := by simp
  by_cases hb : isBlank req.id = true
  · exact .inr (.inr ⟨by simp [Admits, hb], .invalidId, by simp [join, hb]⟩)
  by_cases hp : (q.isPlaying req.id || q.isQueued req.id) = true
  · refine .inr (.inr ⟨fun h ↦ ?_, .alreadyPresent, by simp only [join, hb, hp]; rfl⟩)
    rcases hpresent.mp hp with hp | hp
    · exact h.2.1 hp
    · exact h.2.2.1 hp
  have hnot := not_or.mp (fun h ↦ hp (hpresent.mpr h))
  have hb' : isBlank req.id = false := by simpa using hb
  by_cases hf : q.slotFreeFor req.holdsReservation = true
  · refine .inl ⟨⟨hb', hnot.1, hnot.2, hf⟩, ?_⟩
    simp [join, hb', hp, hf]
  have hadm : ¬q.Admits req := fun h ↦ hf h.2.2.2
  by_cases hw : q.waitlist.length < q.config.maxQueueLen
  · refine .inr (.inl ⟨hadm, hb', hnot.1, hnot.2, hw, ?_⟩)
    simp [join, hb', hp, hf, hw]
  · refine .inr (.inr ⟨hadm, ?_⟩)
    by_cases h0 : q.config.maxQueueLen = 0
    · exact ⟨.serverFull, by simp [join, hb', hp, hf, h0]⟩
    · exact ⟨.queueFull, by simp [join, hb', hp, hf, hw, h0]⟩

end Queue

end Aldivine.AdmissionQueue.Model
