import Aldivine.Foundation.Execution
import Aldivine.Foundation.Table

namespace Aldivine.Rpc.Registry

open Foundation.Execution Foundation.Table

inductive RpcDirection
  | clientToServer
  | serverToClient
  | resourceToResource
deriving DecidableEq

/-- Payloads are left to `ν`; instants and durations are in nanoseconds. -/
structure RpcRequest (ν : Type) where
  id : ℕ
  method : String
  payload : ν
  direction : RpcDirection
  owner : String
  created : ℕ
deriving DecidableEq

structure RpcResponse (ν : Type) where
  id : ℕ
  ok : Bool
  error : Option String
  data : Option ν

variable {ν : Type}

namespace RpcResponse

def success (id : ℕ) (data : ν) : RpcResponse ν := ⟨id, true, none, some data⟩

def failure (id : ℕ) (error : String) : RpcResponse ν := ⟨id, false, some error, none⟩

end RpcResponse

structure RpcRegistry (ν : Type) where
  pending : AList (fun _ : ℕ ↦ RpcRequest ν)
  nextId : ℕ
  timeouts : List (ℕ × ℕ)

namespace RpcRegistry

def new : RpcRegistry ν := ⟨∅, 0, []⟩

def newRequest (r : RpcRegistry ν) (method : String) (payload : ν) (direction : RpcDirection)
    (owner : String) (now : ℕ) : RpcRegistry ν × RpcRequest ν :=
  ({ r with nextId := r.nextId + 1 }, ⟨r.nextId + 1, method, payload, direction, owner, now⟩)

/-- What `track` does under the lock of the pending requests. -/
def insert (r : RpcRegistry ν) (req : RpcRequest ν) : RpcRegistry ν :=
  { r with pending := r.pending.insert req.id req }

/-- What `track` does under the lock of the timeouts. -/
def push (r : RpcRegistry ν) (entry : ℕ × ℕ) : RpcRegistry ν :=
  { r with timeouts := r.timeouts ++ [entry] }

def track (r : RpcRegistry ν) (req : RpcRequest ν) (timeout : ℕ) : RpcRegistry ν :=
  (r.insert req).push (timeout, req.id)

def resolve (r : RpcRegistry ν) (resp : RpcResponse ν) : RpcRegistry ν × Option (RpcRequest ν) :=
  ({ r with pending := r.pending.erase resp.id }, r.pending.lookup resp.id)

def timedOut (r : RpcRegistry ν) (now : ℕ) (entry : ℕ × ℕ) : Option Bool :=
  (r.pending.lookup entry.2).map (fun req ↦ decide (entry.1 ≤ now - req.created))

def remove (r : RpcRegistry ν) (ids : List ℕ) : RpcRegistry ν :=
  { r with pending := ids.foldl (fun pending id ↦ pending.erase id) r.pending }

def expire (r : RpcRegistry ν) (now : ℕ) : RpcRegistry ν × List ℕ :=
  let expired := (r.timeouts.filter (fun entry ↦ r.timedOut now entry == some true)).map Prod.snd
  let kept := r.timeouts.filter (fun entry ↦ r.timedOut now entry == some false)
  ({ r.remove expired with timeouts := kept }, expired)

def pendingCount (r : RpcRegistry ν) : ℕ := r.pending.keys.length

end RpcRegistry

/-- An `expire` that holds the lock of the timeouts: what it has kept of them, what it has still to
look at, and the ids that it found timed out. -/
structure Pass where
  now : ℕ
  kept : List (ℕ × ℕ)
  rest : List (ℕ × ℕ)
  expired : List ℕ

/-- The registry between two sections under a lock: the calls of `track` that are between theirs,
and the `expire` that is under way. -/
structure System (ν : Type) where
  registry : RpcRegistry ν
  tracking : List (ℕ × ℕ)
  pass : Option Pass

inductive Event (ν : Type)
  | newRequest (method : String) (payload : ν) (direction : RpcDirection) (owner : String)
      (now : ℕ)
  | insert (req : RpcRequest ν) (timeout : ℕ)
  | push (entry : ℕ × ℕ)
  | resolve (resp : RpcResponse ν)
  | «begin» (now : ℕ)
  | check
  | finish

inductive Reply (ν : Type)
  | made (req : RpcRequest ν)
  | tracked (req : RpcRequest ν) (timeout : ℕ)
  | scheduled (id : ℕ)
  | resolved (result : Option (RpcRequest ν)) (id : ℕ)
  | due (id now : ℕ)
  | expired (ids : List ℕ)
  | silent

namespace System

def new : System ν := ⟨.new, [], none⟩

/-- One section under a lock. A thread whose lock is held does nothing. -/
def step (s : System ν) : Event ν → System ν × Reply ν
  | .newRequest method payload direction owner now =>
    let (registry, req) := s.registry.newRequest method payload direction owner now
    ({ s with registry := registry }, .made req)
  | .insert req timeout =>
    ({ s with registry := s.registry.insert req, tracking := s.tracking ++ [(timeout, req.id)] },
      .tracked req timeout)
  | .push entry =>
    if s.pass.isNone ∧ entry ∈ s.tracking then
      ({ s with registry := s.registry.push entry, tracking := s.tracking.erase entry },
        .scheduled entry.2)
    else (s, .silent)
  | .resolve resp =>
    let (registry, result) := s.registry.resolve resp
    ({ s with registry := registry }, .resolved result resp.id)
  | .begin now =>
    match s.pass with
    | some _ => (s, .silent)
    | none =>
      ({ s with
          registry := { s.registry with timeouts := [] }
          pass := some ⟨now, [], s.registry.timeouts, []⟩ }, .silent)
  | .check =>
    match s.pass with
    | some ⟨now, kept, entry :: rest, expired⟩ =>
      match s.registry.timedOut now entry with
      | none => ({ s with pass := some ⟨now, kept, rest, expired⟩ }, .silent)
      | some false => ({ s with pass := some ⟨now, kept ++ [entry], rest, expired⟩ }, .silent)
      | some true =>
        ({ s with pass := some ⟨now, kept, rest, expired ++ [entry.2]⟩ }, .due entry.2 now)
    | _ => (s, .silent)
  | .finish =>
    match s.pass with
    | some ⟨_, kept, [], expired⟩ =>
      ({ s with registry := { s.registry.remove expired with timeouts := kept }, pass := none },
        .expired expired)
    | _ => (s, .silent)

def entries (s : System ν) : List (ℕ × ℕ) :=
  match s.pass with
  | none => s.registry.timeouts
  | some p => p.kept ++ p.rest

def found (s : System ν) : List ℕ := (s.pass.map Pass.expired).getD []

end System

section Alone

/-- The calls that nobody interrupts. -/
theorem track_alone (s : System ν) (req : RpcRequest ν) (timeout : ℕ) (hpass : s.pass = none)
    (htracking : s.tracking = []) :
    run System.step s [.insert req timeout, .push (timeout, req.id)] =
      { s with registry := s.registry.track req timeout } := by
  simp [run, System.step, RpcRegistry.track, hpass, htracking]

theorem checks_alone (s : System ν) (now : ℕ) (kept rest : List (ℕ × ℕ)) (expired : List ℕ)
    (hpass : s.pass = some ⟨now, kept, rest, expired⟩) :
    run System.step s (List.replicate rest.length .check) = { s with
      pass := some ⟨now,
        kept ++ rest.filter (fun entry ↦ s.registry.timedOut now entry == some false), [],
        expired ++ (rest.filter
          (fun entry ↦ s.registry.timedOut now entry == some true)).map Prod.snd⟩ } := by
  induction rest generalizing s kept expired with
  | nil =>
    simp only [List.filter_nil, List.map_nil, List.append_nil, ← hpass]
    rfl
  | cons entry rest ih =>
    have hcheck : run System.step s (List.replicate (entry :: rest).length .check) =
        run System.step (s.step .check).1 (List.replicate rest.length .check) := rfl
    rw [hcheck]
    simp only [System.step, hpass]
    cases hverdict : s.registry.timedOut now entry with
    | none =>
      rw [ih _ _ _ rfl]
      simp [hverdict]
    | some verdict =>
      cases verdict with
      | false =>
        rw [ih _ _ _ rfl]
        simp [hverdict]
      | true =>
        rw [ih _ _ _ rfl]
        simp [hverdict]

theorem expire_alone (s : System ν) (now : ℕ) (hpass : s.pass = none) :
    (run System.step s (.begin now :: List.replicate s.registry.timeouts.length .check)).step
        .finish =
      ({ s with registry := (s.registry.expire now).1 },
        .expired (s.registry.expire now).2) := by
  have hbegin : (s.step (.begin now)).1 = { s with
      registry := { s.registry with timeouts := [] }
      pass := some ⟨now, [], s.registry.timeouts, []⟩ } := by
    simp only [System.step, hpass]
  rw [run_cons, hbegin, checks_alone _ now [] _ [] rfl]
  simp only [System.step, List.nil_append, ← hpass]
  rfl

end Alone

section Lives

inductive Milestone (ν : Type)
  | tracked (req : RpcRequest ν) (timeout : ℕ)
  | scheduled
  | resolved (req : RpcRequest ν)
  | due (now : ℕ)
  | reported

def Milestone.isTracked : Milestone ν → Bool
  | .tracked _ _ => true
  | _ => false

def milestone (id : ℕ) : Reply ν → Option (Milestone ν)
  | .tracked req timeout => if req.id = id then some (.tracked req timeout) else none
  | .scheduled i => if i = id then some .scheduled else none
  | .resolved (some req) i => if i = id then some (.resolved req) else none
  | .due i now => if i = id then some (.due now) else none
  | .expired ids => if id ∈ ids then some .reported else none
  | _ => none

def life (id : ℕ) (history : List (Event ν × Reply ν)) : List (Milestone ν) :=
  history.filterMap (fun x ↦ milestone id x.2)

def ofId (id : ℕ) (entries : List (ℕ × ℕ)) : List (ℕ × ℕ) :=
  entries.filter (fun entry ↦ decide (entry.2 = id))

structure View (ν : Type) where
  pending : Option (RpcRequest ν)
  tracking : List (ℕ × ℕ)
  entries : List (ℕ × ℕ)
  found : List ℕ

def System.view (s : System ν) (id : ℕ) : View ν where
  pending := s.registry.pending.lookup id
  tracking := ofId id s.tracking
  entries := ofId id s.entries
  found := s.found.filter (fun i ↦ decide (i = id))

/-- The lives of an id that is tracked once. It is resolved at most once, to the request that was
tracked, and reported at most once, when its time was up; it is both only if it was resolved while
the `expire` that had found it was under way. -/
inductive Course (id : ℕ) : View ν → List (Milestone ν) → Prop
  | unknown : Course id ⟨none, [], [], []⟩ []
  | tracked (req : RpcRequest ν) (d : ℕ) : Course id ⟨some req, [(d, id)], [], []⟩ [.tracked req d]
  | early (req : RpcRequest ν) (d : ℕ) :
    Course id ⟨none, [(d, id)], [], []⟩ [.tracked req d, .resolved req]
  | earlyScheduled (req : RpcRequest ν) {d : ℕ} {stale : List (ℕ × ℕ)}
      (hstale : stale.Sublist [(d, id)]) :
    Course id ⟨none, [], stale, []⟩ [.tracked req d, .resolved req, .scheduled]
  | waiting (req : RpcRequest ν) (d : ℕ) :
    Course id ⟨some req, [], [(d, id)], []⟩ [.tracked req d, .scheduled]
  | answered (req : RpcRequest ν) {d : ℕ} {stale : List (ℕ × ℕ)}
      (hstale : stale.Sublist [(d, id)]) :
    Course id ⟨none, [], stale, []⟩ [.tracked req d, .scheduled, .resolved req]
  | due {req : RpcRequest ν} {d now : ℕ} (hdue : d ≤ now - req.created) :
    Course id ⟨some req, [], [], [id]⟩ [.tracked req d, .scheduled, .due now]
  | late {req : RpcRequest ν} {d now : ℕ} (hdue : d ≤ now - req.created) :
    Course id ⟨none, [], [], [id]⟩ [.tracked req d, .scheduled, .due now, .resolved req]
  | expired {req : RpcRequest ν} {d now : ℕ} (hdue : d ≤ now - req.created) :
    Course id ⟨none, [], [], []⟩ [.tracked req d, .scheduled, .due now, .reported]
  | both {req : RpcRequest ν} {d now : ℕ} (hdue : d ≤ now - req.created) :
    Course id ⟨none, [], [], []⟩
      [.tracked req d, .scheduled, .due now, .resolved req, .reported]

end Lives

section Courses

variable {id d : ℕ} {pending : Option (RpcRequest ν)} {tracking entries : List (ℕ × ℕ)}
  {found : List ℕ} {course : List (Milestone ν)} {req : RpcRequest ν}

theorem course_fresh {v : View ν} (h : Course id v course)
    (hnone : course.countP Milestone.isTracked = 0) : v = ⟨none, [], [], []⟩ ∧ course = [] := by
  cases h with
  | unknown => exact ⟨rfl, rfl⟩
  | _ => simp [List.countP_cons, Milestone.isTracked] at hnone

theorem Course.push (h : Course id ⟨pending, [(d, id)], entries, found⟩ course) :
    Course id ⟨pending, [], entries ++ [(d, id)], found⟩ (course ++ [.scheduled]) := by
  cases h with
  | tracked req d => exact .waiting req d
  | early req d => exact .earlyScheduled req (List.Sublist.refl _)

theorem Course.resolve (h : Course id ⟨some req, tracking, entries, found⟩ course) :
    Course id ⟨none, tracking, entries, found⟩ (course ++ [.resolved req]) := by
  cases h with
  | tracked req d => exact .early req d
  | waiting req d => exact .answered req (List.Sublist.refl _)
  | due hdue => exact .late hdue

theorem course_entries {v : View ν} (h : Course id v course) :
    v.tracking.length ≤ 1 ∧ v.entries.length ≤ 1 ∧ v.found.length ≤ 1 := by
  cases h with
  | earlyScheduled req hstale => exact ⟨zero_le_one, hstale.length_le, zero_le_one⟩
  | answered req hstale => exact ⟨zero_le_one, hstale.length_le, zero_le_one⟩
  | _ => exact ⟨by simp, by simp, by simp⟩

theorem Course.drop (h : Course id ⟨none, tracking, entries, found⟩ course) :
    Course id ⟨none, tracking, [], found⟩ course := by
  cases h with
  | unknown => exact .unknown
  | early req d => exact .early req d
  | earlyScheduled req hstale => exact .earlyScheduled req (List.nil_sublist _)
  | answered req hstale => exact .answered req (List.nil_sublist _)
  | late hdue => exact .late hdue
  | expired hdue => exact .expired hdue
  | both hdue => exact .both hdue

theorem Course.due_of_waiting {now : ℕ}
    (h : Course id ⟨some req, tracking, [(d, id)], found⟩ course)
    (hdue : d ≤ now - req.created) :
    Course id ⟨some req, tracking, [], found ++ [id]⟩ (course ++ [.due now]) := by
  cases h
  exact .due hdue

theorem Course.report (h : Course id ⟨pending, tracking, entries, [id]⟩ course) :
    Course id ⟨none, tracking, entries, []⟩ (course ++ [.reported]) := by
  cases h with
  | due hdue => exact .expired hdue
  | late hdue => exact .both hdue

theorem Course.unsettled {v : View ν} {later : List (Milestone ν)}
    (h : Course id v (.tracked req d :: .scheduled :: later)) (hlater : .reported ∉ later) :
    v.pending = some req ∧ v.entries = [(d, id)] ∨ v.found = [id] ∨ .resolved req ∈ later := by
  cases h with
  | waiting => exact .inl ⟨rfl, rfl⟩
  | answered => exact .inr (.inr (by simp))
  | due => exact .inr (.inl rfl)
  | late => exact .inr (.inl rfl)
  | expired => simp at hlater
  | both => simp at hlater

end Courses

section Steps

variable {s s' : System ν} {history : List (Event ν × Reply ν)} {event : Event ν}
  {reply : Reply ν} {id i now : ℕ} {entry : ℕ × ℕ} {m : Milestone ν}

theorem life_concat : life id (history ++ [(event, reply)]) =
    life id history ++ (milestone id reply).toList := by
  rw [life, List.filterMap_append]
  cases h : milestone id reply with
  | none => simp [life, h]
  | some m => simp [life, h]

theorem ofId_concat (id : ℕ) (l : List (ℕ × ℕ)) (entry : ℕ × ℕ) :
    ofId id (l ++ [entry]) = ofId id l ++ if entry.2 = id then [entry] else [] := by
  rw [ofId, List.filter_append]
  by_cases h : entry.2 = id
  · simp [ofId, h]
  · simp [ofId, h]

theorem ofId_erase (id : ℕ) (l : List (ℕ × ℕ)) (entry : ℕ × ℕ) :
    ofId id (l.erase entry) = if entry.2 = id then (ofId id l).erase entry else ofId id l := by
  rw [ofId, ← List.erase_filter]
  split
  · rfl
  · rename_i h
    exact List.erase_of_not_mem (fun hmem ↦ h (of_decide_eq_true (List.mem_filter.mp hmem).2))

theorem view_eq {v : View ν} (hpending : s.registry.pending.lookup id = v.pending)
    (htracking : ofId id s.tracking = v.tracking) (hentries : ofId id s.entries = v.entries)
    (hfound : s.found.filter (fun i ↦ decide (i = id)) = v.found) : s.view id = v := by
  rw [System.view, hpending, htracking, hentries, hfound]

theorem timedOut_congr {r r' : RpcRegistry ν}
    (h : r'.pending.lookup entry.2 = r.pending.lookup entry.2) :
    r'.timedOut now entry = r.timedOut now entry := by
  rw [RpcRegistry.timedOut, RpcRegistry.timedOut, h]

/-- Where the life of an id has come to, what the `expire` that is under way has kept of it, and
that no timeout is added meanwhile. -/
structure Held (id : ℕ) (s : System ν) (history : List (Event ν × Reply ν)) : Prop where
  course : Course id (s.view id) (life id history)
  kept : ∀ p, s.pass = some p → ∀ entry ∈ p.kept, entry.2 = id →
    s.registry.timedOut p.now entry ≠ some true
  locked : ∀ p, s.pass = some p → s.registry.timeouts = []

theorem held_new (id : ℕ) : Held id (System.new : System ν) [] where
  course := .unknown
  kept _ h := by cases h
  locked _ h := by cases h

theorem Held.elsewhere (h : Held id s history) (hview : s'.view id = s.view id)
    (hpass : s'.pass = s.pass) (htimeouts : s'.pass.isSome →
      s'.registry.timeouts = s.registry.timeouts) (hreply : milestone id reply = none) :
    Held id s' (history ++ [(event, reply)]) := by
  have hpending : s'.registry.pending.lookup id = s.registry.pending.lookup id :=
    congrArg View.pending hview
  refine ⟨?_, fun p hp entry hentry hid ↦ ?_, fun p hp ↦ ?_⟩
  · rw [hview, life_concat, hreply, Option.toList_none, List.append_nil]
    exact h.course
  · subst hid
    rw [timedOut_congr hpending]
    exact h.kept p (hpass ▸ hp) entry hentry rfl
  · rw [htimeouts (hp ▸ rfl)]
    exact h.locked p (hpass ▸ hp)

theorem mem_entries {p : Pass} (hp : s.pass = some p) (hentry : entry ∈ p.kept) :
    entry ∈ s.entries := by
  rw [System.entries, hp]
  exact List.mem_append_left _ hentry

theorem Held.insert (h : Held id s history) {req : RpcRequest ν} {d : ℕ}
    (honce : (life id (history ++ [(event, .tracked req d)])).countP Milestone.isTracked ≤ 1) :
    Held id (s.step (.insert req d)).1 (history ++ [(event, .tracked req d)]) := by
  by_cases hid : req.id = id
  · subst hid
    have hmilestone : milestone req.id (.tracked req d) = some (.tracked req d) := if_pos rfl
    rw [life_concat, hmilestone, Option.toList_some, List.countP_append,
      List.countP_singleton] at honce
    have hnone : (life req.id history).countP Milestone.isTracked = 0 :=
      Nat.le_zero.mp (Nat.le_of_succ_le_succ honce)
    obtain ⟨hview, hlife⟩ := course_fresh h.course hnone
    have htracking : ofId req.id s.tracking = [] := congrArg View.tracking hview
    have hentries : ofId req.id s.entries = [] := congrArg View.entries hview
    have hfound : s.found.filter (fun i ↦ decide (i = req.id)) = [] := congrArg View.found hview
    refine ⟨?_, fun p hp entry hentry hid ↦ ?_, h.locked⟩
    · have hnew : (s.step (.insert req d)).1.view req.id = ⟨some req, [(d, req.id)], [], []⟩ := by
        refine view_eq (AList.lookup_insert _) ?_ hentries hfound
        exact (ofId_concat _ _ _).trans (by rw [htracking, if_pos rfl]; rfl)
      rw [hnew, life_concat, hlife, hmilestone]
      exact .tracked req d
    · have hmem : entry ∈ ofId req.id s.entries :=
        List.mem_filter.mpr ⟨mem_entries hp hentry, by simpa using hid⟩
      rw [hentries] at hmem
      cases hmem
  · refine h.elsewhere (view_eq (AList.lookup_insert_ne (Ne.symm hid)) ?_ rfl rfl) rfl
      (fun _ ↦ rfl) (if_neg hid)
    exact (ofId_concat _ _ _).trans (by rw [if_neg hid, List.append_nil]; rfl)

theorem Held.push (h : Held id s history) (hpass : s.pass = none) (hentry : entry ∈ s.tracking) :
    Held id { s with registry := s.registry.push entry, tracking := s.tracking.erase entry }
      (history ++ [(event, .scheduled entry.2)]) := by
  have hentries : System.entries
      { s with registry := s.registry.push entry, tracking := s.tracking.erase entry } =
        s.entries ++ [entry] := by
    rw [System.entries, System.entries, hpass]
    rfl
  by_cases hid : entry.2 = id
  · subst hid
    have hmem : entry ∈ ofId entry.2 s.tracking := List.mem_filter.mpr ⟨hentry, by simp⟩
    have htracking : ofId entry.2 s.tracking = [entry] := by
      obtain ⟨a, ha⟩ := List.length_eq_one_iff.mp
        (le_antisymm (course_entries h.course).1 (List.length_pos_of_mem hmem))
      have hview : ofId entry.2 s.tracking = [a] := ha
      rw [hview] at hmem ⊢
      rw [List.mem_singleton.mp hmem]
    refine ⟨?_, fun p hp ↦ ?_, fun p hp ↦ ?_⟩
    · have hnew : System.view
          { s with registry := s.registry.push entry, tracking := s.tracking.erase entry }
            entry.2 = ⟨(s.view entry.2).pending, [], (s.view entry.2).entries ++ [entry],
              (s.view entry.2).found⟩ := by
        refine view_eq rfl ?_ ?_ rfl
        · rw [ofId_erase, if_pos rfl, htracking, List.erase_cons_head]
        · rw [hentries, ofId_concat, if_pos rfl]
          rfl
      have hold : s.view entry.2 = ⟨(s.view entry.2).pending, [(entry.1, entry.2)],
          (s.view entry.2).entries, (s.view entry.2).found⟩ := view_eq rfl htracking rfl rfl
      have hcourse := h.course
      rw [hold] at hcourse
      have hmilestone : milestone entry.2 (.scheduled entry.2 : Reply ν) = some .scheduled :=
        if_pos rfl
      rw [hnew, life_concat, hmilestone]
      exact hcourse.push
    · rw [hpass] at hp
      cases hp
    · rw [hpass] at hp
      cases hp
  · refine h.elsewhere (view_eq rfl ?_ ?_ rfl) rfl (fun hsome ↦ ?_) (if_neg hid)
    · rw [ofId_erase, if_neg hid]
      rfl
    · rw [hentries, ofId_concat, if_neg hid, List.append_nil]
      rfl
    · rw [hpass] at hsome
      cases hsome

theorem Held.resolve (h : Held id s history) (resp : RpcResponse ν) :
    Held id { s with registry := (s.registry.resolve resp).1 }
      (history ++ [(event, .resolved (s.registry.resolve resp).2 resp.id)]) := by
  by_cases hid : resp.id = id
  · subst hid
    have hnew (v : View ν) (hv : s.view resp.id = v) :
        System.view { s with registry := (s.registry.resolve resp).1 } resp.id =
          { v with pending := none } := by
      subst hv
      exact view_eq (AList.lookup_erase _ _) rfl rfl rfl
    cases hpending : s.registry.pending.lookup resp.id with
    | none =>
      have hreply : (s.registry.resolve resp).2 = none := hpending
      rw [hreply]
      refine h.elsewhere ?_ rfl (fun _ ↦ rfl) rfl
      rw [hnew _ rfl]
      exact (view_eq hpending rfl rfl rfl).symm
    | some req =>
      have hreply : (s.registry.resolve resp).2 = some req := hpending
      have hview : s.view resp.id = { s.view resp.id with pending := some req } :=
        view_eq hpending rfl rfl rfl
      have hmilestone : milestone resp.id (.resolved (some req) resp.id) =
        some (.resolved req) := if_pos rfl
      have hcourse := h.course
      rw [hview] at hcourse
      refine ⟨?_, fun p hp entry hentry hid ↦ ?_, h.locked⟩
      · rw [hreply, hnew _ hview, life_concat, hmilestone]
        exact hcourse.resolve
      · have hgone : (s.registry.resolve resp).1.pending.lookup entry.2 = none := by
          rw [hid]
          exact AList.lookup_erase _ _
        simp [RpcRegistry.timedOut, hgone]
  · refine h.elsewhere (view_eq (AList.lookup_erase_ne (Ne.symm hid)) rfl rfl rfl) rfl
      (fun _ ↦ rfl) ?_
    cases (s.registry.resolve resp).2 with
    | none => rfl
    | some req => exact if_neg hid

theorem Held.begin (h : Held id s history) (now : ℕ) (hpass : s.pass = none) :
    Held id { s with
        registry := { s.registry with timeouts := [] }
        pass := some ⟨now, [], s.registry.timeouts, []⟩ } (history ++ [(event, .silent)]) := by
  have hview : System.view { s with
      registry := { s.registry with timeouts := [] }
      pass := some ⟨now, [], s.registry.timeouts, []⟩ } id = s.view id := by
    refine view_eq rfl rfl ?_ ?_
    · simp [System.entries, System.view, hpass]
    · simp [System.found, System.view, hpass]
  refine ⟨?_, fun p hp entry hentry ↦ ?_, fun p hp ↦ rfl⟩
  · rw [hview, life_concat]
    exact (List.append_nil (life id history)).symm ▸ h.course
  · cases hp
    cases hentry

section Passes

variable {kept rest : List (ℕ × ℕ)} {expired : List ℕ}

theorem view_of_pass (hpass : s.pass = some ⟨now, kept, rest, expired⟩) (id : ℕ) : s.view id =
    ⟨s.registry.pending.lookup id, ofId id s.tracking, ofId id kept ++ ofId id rest,
      expired.filter (fun i ↦ decide (i = id))⟩ := by
  refine view_eq rfl rfl ?_ ?_
  · rw [System.entries, hpass]
    exact List.filter_append ..
  · rw [System.found, hpass]
    rfl

theorem ofId_cons (id : ℕ) (entry : ℕ × ℕ) (l : List (ℕ × ℕ)) :
    ofId id (entry :: l) = if entry.2 = id then entry :: ofId id l else ofId id l := by
  rw [ofId, List.filter_cons]
  simp only [decide_eq_true_eq]
  rfl

theorem Held.looked (h : Held entry.2 s history)
    (hpass : s.pass = some ⟨now, kept, entry :: rest, expired⟩) :
    ofId entry.2 kept = [] ∧ ofId entry.2 rest = [] := by
  have hlength := (course_entries h.course).2.1
  rw [view_of_pass hpass, ofId_cons, if_pos rfl, List.length_append, List.length_cons] at hlength
  exact ⟨List.length_eq_zero_iff.mp (by omega), List.length_eq_zero_iff.mp (by omega)⟩

theorem Held.keep (h : Held id s history)
    (hpass : s.pass = some ⟨now, kept, entry :: rest, expired⟩)
    (hearly : s.registry.timedOut now entry = some false) :
    Held id { s with pass := some ⟨now, kept ++ [entry], rest, expired⟩ }
      (history ++ [(event, .silent)]) := by
  refine ⟨?_, fun p hp e he hid ↦ ?_, fun p hp ↦ h.locked _ hpass⟩
  · have hsame : ofId id (kept ++ [entry]) ++ ofId id rest =
        ofId id kept ++ ofId id (entry :: rest) := by
      rw [ofId, ofId, ofId, ofId, ← List.filter_append, ← List.filter_append, List.append_assoc]
      rfl
    rw [view_of_pass rfl, hsame, life_concat, ← view_of_pass hpass]
    exact (List.append_nil (life id history)).symm ▸ h.course
  · cases hp
    rcases List.mem_append.mp he with he | he
    · exact h.kept _ hpass e he hid
    · rw [List.mem_singleton.mp he]
      exact ne_of_eq_of_ne hearly (by decide)

theorem Held.drop (h : Held id s history)
    (hpass : s.pass = some ⟨now, kept, entry :: rest, expired⟩)
    (hgone : s.registry.timedOut now entry = none) :
    Held id { s with pass := some ⟨now, kept, rest, expired⟩ }
      (history ++ [(event, .silent)]) := by
  refine ⟨?_, fun p hp e he hid ↦ ?_, fun p hp ↦ h.locked _ hpass⟩
  · have hcourse := h.course
    rw [view_of_pass hpass] at hcourse
    rw [view_of_pass rfl, life_concat]
    refine (List.append_nil (life id history)).symm ▸ ?_
    by_cases hid : entry.2 = id
    · subst hid
      obtain ⟨hkept, hrest⟩ := h.looked hpass
      have hpending : s.registry.pending.lookup entry.2 = none := Option.map_eq_none_iff.mp hgone
      rw [hpending] at hcourse ⊢
      rw [hkept, hrest]
      exact hcourse.drop
    · rwa [ofId_cons, if_neg hid] at hcourse
  · cases hp
    exact h.kept _ hpass e he hid

theorem Held.find (h : Held id s history)
    (hpass : s.pass = some ⟨now, kept, entry :: rest, expired⟩)
    (hdue : s.registry.timedOut now entry = some true) :
    Held id { s with pass := some ⟨now, kept, rest, expired ++ [entry.2]⟩ }
      (history ++ [(event, .due entry.2 now)]) := by
  refine ⟨?_, fun p hp e he hid ↦ ?_, fun p hp ↦ h.locked _ hpass⟩
  · have hcourse := h.course
    rw [view_of_pass hpass] at hcourse
    rw [view_of_pass rfl, life_concat, List.filter_append]
    by_cases hid : entry.2 = id
    · subst hid
      obtain ⟨req, hpending, htime⟩ := Option.map_eq_some_iff.mp hdue
      obtain ⟨hkept, hrest⟩ := h.looked hpass
      have hmilestone : milestone entry.2 (.due entry.2 now : Reply ν) = some (.due now) :=
        if_pos rfl
      rw [hpending, hkept, ofId_cons, if_pos rfl, hrest, List.nil_append] at hcourse
      rw [hpending, hkept, hrest, hmilestone]
      simpa using hcourse.due_of_waiting (of_decide_eq_true htime)
    · have hmilestone : milestone id (.due entry.2 now : Reply ν) = none := if_neg hid
      rw [ofId_cons, if_neg hid] at hcourse
      rw [hmilestone]
      simpa [hid] using hcourse
  · cases hp
    exact h.kept _ hpass e he hid

theorem lookup_remove (r : RpcRegistry ν) (ids : List ℕ) :
    (r.remove ids).pending.lookup id = if id ∈ ids then none else r.pending.lookup id := by
  unfold RpcRegistry.remove
  dsimp only
  induction ids using List.reverseRecOn with
  | nil => rfl
  | append_singleton ids i ih =>
    rw [List.foldl_concat]
    by_cases hid : id = i
    · subst hid
      simp
    · rw [AList.lookup_erase_ne hid, ih]
      simp [hid]

theorem Held.finish (h : Held id s history)
    (hpass : s.pass = some ⟨now, kept, [], expired⟩) :
    Held id { s with
        registry := { s.registry.remove expired with timeouts := kept }, pass := none }
      (history ++ [(event, .expired expired)]) := by
  have hcourse := h.course
  have hlength := (course_entries hcourse).2.2
  rw [view_of_pass hpass] at hcourse hlength
  dsimp only at hlength
  have hview : System.view { s with
      registry := { s.registry.remove expired with timeouts := kept }, pass := none } id =
        ⟨if id ∈ expired then none else s.registry.pending.lookup id, ofId id s.tracking,
          ofId id kept ++ ofId id [], []⟩ :=
    view_eq (lookup_remove _ _) rfl (List.append_nil _).symm rfl
  refine ⟨?_, fun p hp _ _ _ ↦ (by cases hp), fun p hp ↦ (by cases hp)⟩
  rw [hview, life_concat]
  by_cases hid : id ∈ expired
  · have hfound : expired.filter (fun i ↦ decide (i = id)) = [id] := by
      obtain ⟨a, ha⟩ := List.length_eq_one_iff.mp (le_antisymm hlength
        (List.length_pos_of_mem (List.mem_filter.mpr ⟨hid, by simp⟩)))
      have hmem : id ∈ expired.filter (fun i ↦ decide (i = id)) :=
        List.mem_filter.mpr ⟨hid, by simp⟩
      rw [ha] at hmem ⊢
      rw [List.mem_singleton.mp hmem]
    have hmilestone : milestone id (.expired expired : Reply ν) = some .reported := if_pos hid
    rw [hfound] at hcourse
    rw [if_pos hid, hmilestone]
    exact hcourse.report
  · have hfound : expired.filter (fun i ↦ decide (i = id)) = [] :=
      List.filter_eq_nil_iff.mpr (fun i hi hiid ↦ hid (of_decide_eq_true hiid ▸ hi))
    have hmilestone : milestone id (.expired expired : Reply ν) = none := if_neg hid
    rw [hfound] at hcourse
    rw [if_neg hid, hmilestone, Option.toList_none, List.append_nil]
    exact hcourse

end Passes

theorem Held.step (h : Held id s history) (event : Event ν)
    (honce : (life id (history ++ [(event, (s.step event).2)])).countP Milestone.isTracked ≤ 1) :
    Held id (s.step event).1 (history ++ [(event, (s.step event).2)]) := by
  have hquiet {event : Event ν} : Held id s (history ++ [(event, .silent)]) :=
    h.elsewhere rfl rfl (fun _ ↦ rfl) rfl
  cases event with
  | newRequest method payload direction owner now => exact h.elsewhere rfl rfl (fun _ ↦ rfl) rfl
  | insert req d => exact h.insert honce
  | push entry =>
    dsimp only [System.step]
    split
    · rename_i hpush
      exact h.push (Option.isNone_iff_eq_none.mp hpush.1) hpush.2
    · exact hquiet
  | resolve resp => exact h.resolve resp
  | «begin» now =>
    dsimp only [System.step]
    split
    · exact hquiet
    · rename_i hpass
      exact h.begin now hpass
  | check =>
    dsimp only [System.step]
    split
    · rename_i hpass
      split
      · rename_i hgone
        exact h.drop hpass hgone
      · rename_i hearly
        exact h.keep hpass hearly
      · rename_i hdue
        exact h.find hpass hdue
    · exact hquiet
  | finish =>
    dsimp only [System.step]
    split
    · rename_i hpass
      exact h.finish hpass
    · exact hquiet

end Steps

section Runs

variable {before during events : List (Event ν)} {id now : ℕ}

def trackings (id : ℕ) (events : List (Event ν)) : ℕ :=
  events.countP (fun event ↦
    match event with
    | .insert req _ => decide (req.id = id)
    | _ => false)

theorem untracked {reply : Reply ν} (h : ∀ req d, reply ≠ .tracked req d) :
    (milestone id reply).toList.countP Milestone.isTracked = 0 := by
  unfold milestone
  split
  · exact absurd rfl (h _ _)
  all_goals first | rfl | (split <;> rfl)

theorem tracked_of_step (s : System ν) (event : Event ν) :
    (milestone id (s.step event).2).toList.countP Milestone.isTracked = trackings id [event] := by
  cases event with
  | insert req d =>
    dsimp only [System.step, milestone]
    by_cases hid : req.id = id
    · simp [hid, trackings, Milestone.isTracked]
    · simp [hid, trackings]
  | newRequest method payload direction owner now => rfl
  | push entry =>
    refine untracked (fun req d ↦ ?_)
    dsimp only [System.step]
    split <;> exact nofun
  | resolve resp => exact untracked (fun req d ↦ nofun)
  | «begin» now =>
    refine untracked (fun req d ↦ ?_)
    dsimp only [System.step]
    split <;> exact nofun
  | check =>
    refine untracked (fun req d ↦ ?_)
    dsimp only [System.step]
    split
    · split <;> exact nofun
    · exact nofun
  | finish =>
    refine untracked (fun req d ↦ ?_)
    dsimp only [System.step]
    split <;> exact nofun

theorem tracked_run (events : List (Event ν)) :
    (life id (answers System.step .new events)).countP Milestone.isTracked =
      trackings id events := by
  induction events using List.reverseRecOn with
  | nil => rfl
  | append_singleton events event ih =>
    rw [answers_concat, life_concat, List.countP_append, ih, tracked_of_step, trackings, trackings,
      trackings, List.countP_append]

theorem held_run (honce : trackings id events ≤ 1) :
    Held id (run System.step .new events) (answers System.step .new events) := by
  induction events using List.reverseRecOn with
  | nil => exact held_new id
  | append_singleton events event ih =>
    have hbefore : trackings id events ≤ trackings id (events ++ [event]) := by
      rw [trackings, trackings, List.countP_append]
      exact Nat.le_add_right _ _
    rw [run_concat, answers_concat]
    refine (ih (hbefore.trans honce)).step event ?_
    rw [← answers_concat, tracked_run]
    exact honce

/-- Until an `expire` is finished it stays under way, and nothing is reported. -/
theorem pass_step {s : System ν} {p : Pass} (hpass : s.pass = some p) {event : Event ν}
    (hevent : event ≠ .finish) :
    (∃ p', (s.step event).1.pass = some p' ∧ p'.now = p.now) ∧
      ∀ ids, (s.step event).2 ≠ .expired ids := by
  cases event with
  | newRequest method payload direction owner now =>
    exact ⟨⟨p, hpass, rfl⟩, fun ids ↦ nofun⟩
  | insert req d => exact ⟨⟨p, hpass, rfl⟩, fun ids ↦ nofun⟩
  | push entry =>
    simp only [System.step, hpass, Option.isNone_some, Bool.false_eq_true, false_and, if_false]
    exact ⟨⟨p, rfl, rfl⟩, fun ids ↦ nofun⟩
  | resolve resp => exact ⟨⟨p, hpass, rfl⟩, fun ids ↦ nofun⟩
  | «begin» now =>
    simp only [System.step, hpass]
    exact ⟨⟨p, rfl, rfl⟩, fun ids ↦ nofun⟩
  | check =>
    obtain ⟨now, kept, rest, expired⟩ := p
    cases rest with
    | nil =>
      simp only [System.step, hpass]
      exact ⟨⟨_, rfl, rfl⟩, fun ids ↦ nofun⟩
    | cons entry rest =>
      simp only [System.step, hpass]
      split <;> exact ⟨⟨_, rfl, rfl⟩, fun ids ↦ nofun⟩
  | finish => exact absurd rfl hevent

theorem expired_of_reported {reply : Reply ν} (h : milestone id reply = some .reported) :
    ∃ ids, reply = .expired ids := by
  unfold milestone at h
  split at h
  all_goals first | exact ⟨_, rfl⟩ | (split at h <;> cases h) | cases h

theorem pass_run (id now : ℕ) (hpass : (run System.step (.new : System ν) before).pass = none)
    (hduring : .finish ∉ during) :
    (∃ p, (run System.step .new (before ++ .begin now :: during)).pass = some p ∧ p.now = now) ∧
      ∃ later, life id (answers System.step .new (before ++ .begin now :: during)) =
        life id (answers System.step .new before) ++ later ∧ .reported ∉ later := by
  induction during using List.reverseRecOn with
  | nil =>
    rw [run_concat, answers_concat, life_concat]
    simp only [System.step, hpass]
    exact ⟨⟨_, rfl, rfl⟩, [], rfl, List.not_mem_nil⟩
  | append_singleton during event ih =>
    rw [List.mem_append, List.mem_singleton, not_or] at hduring
    obtain ⟨⟨p, hp, hnow⟩, later, hlife, hlater⟩ := ih hduring.1
    obtain ⟨⟨p', hp', hnow'⟩, hnone⟩ := pass_step hp (Ne.symm hduring.2)
    rw [← List.cons_append, ← List.append_assoc, run_concat, answers_concat, life_concat, hlife,
      List.append_assoc]
    refine ⟨⟨p', hp', hnow'.trans hnow⟩, _, rfl, fun hmem ↦ ?_⟩
    rcases List.mem_append.mp hmem with hmem | hmem
    · exact hlater hmem
    · obtain ⟨ids, hids⟩ := expired_of_reported (Option.mem_toList.mp hmem)
      exact hnone ids hids

/-- What an `expire` that returns has done to a request that was waiting when it began. -/
theorem Held.settled {s : System ν} {history : List (Event ν × Reply ν)} {p : Pass}
    {ids : List ℕ} {req : RpcRequest ν} {d : ℕ} {later : List (Milestone ν)}
    (h : Held id s history) (hpass : s.pass = some p)
    (hfinish : (s.step .finish).2 = .expired ids)
    (hlife : life id history = .tracked req d :: .scheduled :: later) (hlater : .reported ∉ later)
    (hdue : d ≤ p.now - req.created) : id ∈ ids ∨ .resolved req ∈ life id history := by
  obtain ⟨now, kept, rest, expired⟩ := p
  cases rest with
  | cons entry rest =>
    rw [System.step, hpass] at hfinish
    cases hfinish
  | nil =>
    rw [System.step, hpass] at hfinish
    cases hfinish
    have hcourse := h.course
    rw [view_of_pass hpass, hlife] at hcourse
    have hunsettled := hcourse.unsettled hlater
    dsimp only at hunsettled
    rcases hunsettled with ⟨hpending, hentries⟩ | hfound | hresolved
    · have hkept : (d, id) ∈ ofId id kept := by
        rw [← List.append_nil (ofId id kept)]
        exact hentries.symm ▸ List.mem_singleton_self _
      refine absurd ?_ (h.kept _ hpass (d, id) (List.mem_filter.mp hkept).1 rfl)
      rw [RpcRegistry.timedOut, hpending, Option.map_some, decide_eq_true hdue]
    · exact .inl (List.mem_filter.mp (hfound ▸ List.mem_singleton_self id)).1
    · rw [hlife]
      exact .inr (List.mem_cons_of_mem _ (List.mem_cons_of_mem _ hresolved))

def made : Reply ν → Option ℕ
  | .made req => some req.id
  | _ => none

theorem made_step (s : System ν) (event : Event ν) :
    made (s.step event).2 = some (s.registry.nextId + 1) ∧
        (s.step event).1.registry.nextId = s.registry.nextId + 1 ∨
      made (s.step event).2 = none ∧ (s.step event).1.registry.nextId = s.registry.nextId := by
  cases event with
  | newRequest method payload direction owner now => exact .inl ⟨rfl, rfl⟩
  | insert req d => exact .inr ⟨rfl, rfl⟩
  | resolve resp => exact .inr ⟨rfl, rfl⟩
  | check =>
    refine .inr ?_
    dsimp only [System.step]
    split
    · split <;> exact ⟨rfl, rfl⟩
    · exact ⟨rfl, rfl⟩
  | _ =>
    refine .inr ?_
    dsimp only [System.step]
    split <;> exact ⟨rfl, rfl⟩

theorem made_run (events : List (Event ν)) :
    (answers System.step .new events).filterMap (fun x ↦ made x.2) =
      List.range' 1 (run System.step .new events).registry.nextId := by
  induction events using List.reverseRecOn with
  | nil => rfl
  | append_singleton events event ih =>
    rw [answers_concat, run_concat, List.filterMap_append, ih]
    rcases made_step (run System.step .new events) event with ⟨hmade, hnext⟩ | ⟨hmade, hnext⟩
    · rw [hnext, List.range'_1_concat, Nat.add_comm 1]
      simp [hmade]
    · rw [hnext]
      simp [hmade]

/-- However the threads take their turns at the locks, the ids given out are told apart; an id that
is tracked once has one of the lives of `Course`; and when an `expire` returns, every request that
was wholly tracked when it began, and whose time was up, is resolved or among those it returns. -/
theorem never_unresolved (honce : trackings id events ≤ 1) :
    ((answers System.step .new events).filterMap (fun x ↦ made x.2)).Nodup ∧
    Course id ((run System.step .new events).view id) (life id (answers System.step .new events)) ∧
    ∀ before during now ids req d, events = before ++ .begin now :: during →
      (run System.step .new before).pass = none → .finish ∉ during →
      ((run System.step .new events).step .finish).2 = .expired ids →
      life id (answers System.step .new before) = [.tracked req d, .scheduled] →
      d ≤ now - req.created →
      id ∈ ids ∨ .resolved req ∈ life id (answers System.step .new events) := by
  have h := held_run honce
  refine ⟨?_, h.course, ?_⟩
  · rw [made_run]
    exact List.nodup_range'
  · rintro before during now ids req d rfl hpass hduring hfinish hlife hdue
    obtain ⟨⟨p, hp, rfl⟩, later, hlater, hreported⟩ :=
      pass_run id now hpass hduring
    rw [hlife] at hlater
    exact h.settled hp hfinish hlater hreported hdue

def raced : List (Event Unit) :=
  [.newRequest "slow" () .serverToClient "core" 3,
    .insert ⟨1, "slow", (), .serverToClient, "core", 3⟩ 1, .push (1, 1), .begin 5, .check,
    .resolve (.success 1 ()), .finish]

theorem raced_both : trackings 1 raced ≤ 1 ∧
    life 1 (answers System.step .new raced) =
      [.tracked ⟨1, "slow", (), .serverToClient, "core", 3⟩ 1, .scheduled, .due 5,
        .resolved ⟨1, "slow", (), .serverToClient, "core", 3⟩, .reported] ∧
    Course 1 ((run System.step .new raced).view 1) (life 1 (answers System.step .new raced)) :=
  ⟨by decide, rfl, (never_unresolved (by decide)).2.1⟩

end Runs

end Aldivine.Rpc.Registry
