import Aldivine.Foundation.Execution
import Aldivine.Foundation.Table
import Aldivine.Foundation.Text
import Aldivine.Foundation.Utf8

namespace Aldivine.Nui.Channels

open Foundation.Execution Foundation.Table Foundation.Text Foundation.Utf8

def maxNameLen : ℕ := 64

def maxMessageLen : ℕ := 1048576

inductive NuiError
  | badOrigin (origin : String)
  | badResource (name : String)
  | badPath (path : String)
  | badCallback (name : String)
  | messageTooLarge (size : ℕ)
  | unknownCallback (name : String)
  | doubleResponse (id : ℕ)
  | unknownRequest (id : ℕ)
  | duplicateCallback (name : String)
  | focusWithoutUi (resource : String)
deriving DecidableEq

/-- A byte of a strict name: `is_ascii_alphanumeric`, an underscore or a hyphen. -/
def tokenByte (b : UInt8) : Bool :=
  (48 ≤ b && b ≤ 57) || (65 ≤ b && b ≤ 90) || (97 ≤ b && b ≤ 122) || b == 95 || b == 45

def isToken (s : String) : Bool :=
  !(utf8 s).isEmpty && decide ((utf8 s).length ≤ maxNameLen) && (utf8 s).all tokenByte

def validToken (s : String) (what : String → NuiError) : Except NuiError Unit :=
  if isToken s then .ok () else .error (what s)

section Origins

structure NuiOrigin where
  resource : String
  path : String
deriving DecidableEq

def scheme : String := "aldnui://"

def NuiOrigin.parse (origin : String) : Except NuiError NuiOrigin :=
  if scheme.toList <+: origin.toList then
    match splitOnce '/' (String.ofList (origin.toList.drop scheme.length)) with
    | none => .error (.badOrigin origin)
    | some (resource, path) =>
      if !isToken resource then .error (.badResource resource)
      else if path.isEmpty ∨ '\x00' ∈ path.toList ∨ '\\' ∈ path.toList then .error (.badPath path)
      else if (path.toList.splitOn '/').any (· == ['.', '.']) then .error (.badPath path)
      else .ok ⟨resource, path⟩
  else .error (.badOrigin origin)

structure SafePath (path : String) : Prop where
  ne_empty : path ≠ ""
  no_nul : '\x00' ∉ path.toList
  no_backslash : '\\' ∉ path.toList
  no_parent : ['.', '.'] ∉ path.toList.splitOn '/'

theorem slash_of_token {s : String} (h : isToken s = true) : '/' ∉ s.toList := by
  intro hmem
  simp only [isToken, Bool.and_eq_true, List.all_eq_true] at h
  have hbyte : UInt8.ofNat '/'.toNat ∈ utf8 s := by
    rw [utf8_eq_encode]
    exact List.mem_flatMap.mpr ⟨'/', hmem, (mem_encodeChar (by decide)).mpr rfl⟩
  exact absurd (h.2 _ hbyte) (by decide)

theorem safePath_iff {path : String} : SafePath path ↔
    ¬(path.isEmpty = true ∨ '\x00' ∈ path.toList ∨ '\\' ∈ path.toList) ∧
      ¬(path.toList.splitOn '/').any (· == ['.', '.']) = true := by
  have hparent : (path.toList.splitOn '/').any (· == ['.', '.']) = true ↔
      ['.', '.'] ∈ path.toList.splitOn '/' := by
    simp
  rw [not_or, not_or, String.isEmpty_iff, hparent]
  exact ⟨fun h ↦ ⟨⟨h.ne_empty, h.no_nul, h.no_backslash⟩, h.no_parent⟩,
    fun h ↦ ⟨h.1.1, h.1.2.1, h.1.2.2, h.2⟩⟩

/-- The accepted origins are the scheme, a strict name and a safe path. -/
theorem parse_eq_ok {origin : String} {o : NuiOrigin} :
    NuiOrigin.parse origin = .ok o ↔
      origin = scheme ++ o.resource ++ "/" ++ o.path ∧ isToken o.resource = true ∧
        SafePath o.path := by
  have horigin (resource path : String) : origin = scheme ++ resource ++ "/" ++ path ↔
      origin.toList = scheme.toList ++ (resource.toList ++ '/' :: path.toList) := by
    rw [← String.toList_inj]
    simp
  rw [horigin, safePath_iff]
  constructor
  · intro h
    unfold NuiOrigin.parse at h
    split_ifs at h with hscheme
    obtain ⟨rest, hrest⟩ := hscheme
    rw [← hrest, ← String.length_toList, List.drop_left] at h
    split at h
    · cases h
    · rename_i resource path hsplit
      rw [splitOnce_eq_some, String.toList_ofList] at hsplit
      split_ifs at h with htoken hpath hparent
      cases h
      refine ⟨?_, by simpa using htoken, hpath, hparent⟩
      rw [← hrest, hsplit.1]
  · rintro ⟨hwhole, htoken, hpath, hparent⟩
    have hscheme : scheme.toList <+: origin.toList := ⟨_, hwhole.symm⟩
    have hsplit : splitOnce '/' (String.ofList (origin.toList.drop scheme.length)) =
        some (o.resource, o.path) := by
      rw [hwhole, ← String.length_toList, List.drop_left, splitOnce_eq_some, String.toList_ofList]
      exact ⟨rfl, slash_of_token htoken⟩
    rw [NuiOrigin.parse, if_pos hscheme, hsplit]
    dsimp only
    rw [htoken, if_neg (by decide), if_neg hpath, if_neg hparent]

end Origins

structure CallbackRequest where
  id : ℕ
  callback : String
  resource : String
  payload : List UInt8
deriving DecidableEq

structure CallbackRegistry where
  handlers : AList (fun _ : String ↦ String)
  pending : AList (fun _ : ℕ ↦ CallbackRequest)
  answered : AList (fun _ : ℕ ↦ List UInt8)
  nextId : ℕ

namespace CallbackRegistry

def new : CallbackRegistry := ⟨∅, ∅, ∅, 0⟩

def register (r : CallbackRegistry) (resource callback : String) :
    Except NuiError CallbackRegistry := do
  validToken resource .badResource
  validToken callback .badCallback
  if (r.handlers.lookup callback).isSome then throw (.duplicateCallback callback)
  return { r with handlers := r.handlers.insert callback resource }

def unregister (r : CallbackRegistry) (callback : String) : CallbackRegistry × Bool :=
  ({ r with handlers := r.handlers.erase callback }, (r.handlers.lookup callback).isSome)

def invoke (r : CallbackRegistry) (resource callback : String) (payload : List UInt8) :
    Except NuiError (CallbackRegistry × ℕ) :=
  match r.handlers.lookup callback with
  | none => .error (.unknownCallback callback)
  | some owner =>
    if owner ≠ resource then .error (.unknownCallback callback)
    else if maxMessageLen < payload.length then .error (.messageTooLarge payload.length)
    else
      let request : CallbackRequest := ⟨r.nextId, callback, resource, payload⟩
      .ok ({ r with nextId := r.nextId + 1, pending := r.pending.insert r.nextId request },
        r.nextId)

def respond (r : CallbackRegistry) (id : ℕ) (response : List UInt8) :
    Except NuiError CallbackRegistry :=
  if (r.answered.lookup id).isSome then .error (.doubleResponse id)
  else if (r.pending.lookup id).isNone then .error (.unknownRequest id)
  else
    .ok { r with pending := r.pending.erase id, answered := r.answered.insert id response }

def takeResponse (r : CallbackRegistry) (id : ℕ) : CallbackRegistry × Option (List UInt8) :=
  ({ r with answered := r.answered.erase id }, r.answered.lookup id)

end CallbackRegistry

inductive Call
  | register (resource callback : String)
  | unregister (callback : String)
  | invoke (resource callback : String) (payload : List UInt8)
  | respond (id : ℕ) (response : List UInt8)
  | takeResponse (id : ℕ)
deriving DecidableEq

inductive Answer
  | registered (result : Except NuiError Unit)
  | unregistered (was : Bool)
  | invoked (result : Except NuiError ℕ)
  | responded (result : Except NuiError Unit)
  | taken (response : Option (List UInt8))

def step (r : CallbackRegistry) : Call → CallbackRegistry × Answer
  | .register resource callback =>
    match r.register resource callback with
    | .ok r => (r, .registered (.ok ()))
    | .error e => (r, .registered (.error e))
  | .unregister callback => ((r.unregister callback).1, .unregistered (r.unregister callback).2)
  | .invoke resource callback payload =>
    match r.invoke resource callback payload with
    | .ok (r, id) => (r, .invoked (.ok id))
    | .error e => (r, .invoked (.error e))
  | .respond id response =>
    match r.respond id response with
    | .ok r => (r, .responded (.ok ()))
    | .error e => (r, .responded (.error e))
  | .takeResponse id => ((r.takeResponse id).1, .taken (r.takeResponse id).2)

inductive Milestone
  | invoked (request : CallbackRequest)
  | responded (response : List UInt8)
  | taken (response : List UInt8)
deriving DecidableEq

def milestone (id : ℕ) : Call × Answer → Option Milestone
  | (.invoke resource callback payload, .invoked (.ok i)) =>
    if i = id then some (.invoked ⟨id, callback, resource, payload⟩) else none
  | (.respond i response, .responded (.ok ())) =>
    if i = id then some (.responded response) else none
  | (.takeResponse i, .taken (some response)) => if i = id then some (.taken response) else none
  | _ => none

def life (id : ℕ) (history : List (Call × Answer)) : List Milestone :=
  history.filterMap (milestone id)

inductive Course : Option CallbackRequest → Option (List UInt8) → List Milestone → Prop
  | unknown : Course none none []
  | waiting (request : CallbackRequest) : Course (some request) none [.invoked request]
  | answered (request : CallbackRequest) (response : List UInt8) :
    Course none (some response) [.invoked request, .responded response]
  | taken (request : CallbackRequest) (response : List UInt8) :
    Course none none [.invoked request, .responded response, .taken response]

def owner (callback : String) (history : List (Call × Answer)) : Option String :=
  history.foldl (fun owner x ↦
    match x with
    | (.register resource name, .registered (.ok ())) =>
      if name = callback then some resource else owner
    | (.unregister name, _) => if name = callback then none else owner
    | _ => owner) none

variable {r r' : CallbackRegistry} {history : List (Call × Answer)} {call : Call}
  {answer : Answer} {id i : ℕ} {resource callback : String} {payload response : List UInt8}

theorem life_concat (id : ℕ) (history : List (Call × Answer)) (x : Call × Answer) :
    life id (history ++ [x]) = life id history ++ (milestone id x).toList := by
  rw [life, List.filterMap_append]
  cases h : milestone id x with
  | none => simp [life, h]
  | some m => simp [life, h]

/-- The state of the registry follows from what was called and answered. -/
structure Tracks (r : CallbackRegistry) (history : List (Call × Answer)) : Prop where
  course : ∀ id, Course (r.pending.lookup id) (r.answered.lookup id) (life id history)
  unused : ∀ id, r.nextId ≤ id → life id history = []
  owners : ∀ callback, r.handlers.lookup callback = owner callback history

section Inversion

theorem register_eq_ok (h : r.register resource callback = .ok r') :
    r' = { r with handlers := r.handlers.insert callback resource } := by
  unfold CallbackRegistry.register at h
  simp only [bind, Except.bind, throw, throwThe, MonadExceptOf.throw, pure, Except.pure] at h
  split at h
  · cases h
  · split at h
    · cases h
    · split_ifs at h
      cases h
      rfl

theorem invoke_eq_ok (h : r.invoke resource callback payload = .ok (r', id)) :
    id = r.nextId ∧ r' = { r with
      nextId := r.nextId + 1
      pending := r.pending.insert r.nextId ⟨r.nextId, callback, resource, payload⟩ } := by
  unfold CallbackRegistry.invoke at h
  split at h
  · cases h
  · split_ifs at h
    cases h
    exact ⟨rfl, rfl⟩

theorem respond_eq_ok (h : r.respond id response = .ok r') :
    r.answered.lookup id = none ∧ (∃ request, r.pending.lookup id = some request) ∧
      r' = { r with
        pending := r.pending.erase id, answered := r.answered.insert id response } := by
  unfold CallbackRegistry.respond at h
  split_ifs at h with hanswered hpending
  cases h
  refine ⟨Option.not_isSome_iff_eq_none.mp hanswered, ?_, rfl⟩
  exact Option.ne_none_iff_exists'.mp (fun hnone ↦ hpending (Option.isNone_iff_eq_none.mpr hnone))

end Inversion

section Courses

variable {pending : Option CallbackRequest} {answered : Option (List UInt8)}
  {course : List Milestone} {request : CallbackRequest}

theorem course_nil (h : Course pending answered []) : pending = none ∧ answered = none := by
  cases h
  exact ⟨rfl, rfl⟩

theorem course_waiting (h : Course (some request) none course) : course = [.invoked request] := by
  cases h
  rfl

theorem course_answered (h : Course pending (some response) course) :
    ∃ request, pending = none ∧ course = [.invoked request, .responded response] := by
  cases h with
  | answered request => exact ⟨request, rfl, rfl⟩

end Courses

theorem Tracks.unnoticed (h : Tracks r history)
    (hsame : r'.pending = r.pending ∧ r'.answered = r.answered ∧ r'.nextId = r.nextId)
    (hnone : ∀ id, milestone id (call, answer) = none)
    (howners : ∀ name, r'.handlers.lookup name = owner name (history ++ [(call, answer)])) :
    Tracks r' (history ++ [(call, answer)]) := by
  obtain ⟨hpending, hanswered, hnext⟩ := hsame
  have hlife (id : ℕ) : life id (history ++ [(call, answer)]) = life id history := by
    rw [life_concat, hnone, Option.toList_none, List.append_nil]
  refine ⟨fun id ↦ ?_, fun id hid ↦ ?_, howners⟩
  · rw [hpending, hanswered, hlife]
    exact h.course id
  · rw [hlife]
    exact h.unused id (hnext ▸ hid)

theorem Tracks.noticed (h : Tracks r history) (hsame : r'.handlers = r.handlers)
    (hnext : r.nextId ≤ r'.nextId)
    (hothers : ∀ i ≠ id, r'.pending.lookup i = r.pending.lookup i ∧
      r'.answered.lookup i = r.answered.lookup i ∧ milestone i (call, answer) = none)
    (hid : Course (r'.pending.lookup id) (r'.answered.lookup id)
      (life id (history ++ [(call, answer)]))) (hused : id < r'.nextId)
    (howners : ∀ name, owner name (history ++ [(call, answer)]) = owner name history) :
    Tracks r' (history ++ [(call, answer)]) := by
  have hlife {i : ℕ} (hi : i ≠ id) : life i (history ++ [(call, answer)]) = life i history := by
    rw [life_concat, (hothers i hi).2.2, Option.toList_none, List.append_nil]
  refine ⟨fun i ↦ ?_, fun i hi ↦ ?_, fun name ↦ ?_⟩
  · by_cases heq : i = id
    · rw [heq]
      exact hid
    · rw [(hothers i heq).1, (hothers i heq).2.1, hlife heq]
      exact h.course i
  · rw [hlife (Nat.ne_of_gt (hused.trans_le hi))]
    exact h.unused i (hnext.trans hi)
  · rw [hsame, howners]
    exact h.owners name

theorem Tracks.used (h : Tracks r history) (hlife : life id history ≠ []) : id < r.nextId :=
  not_le.mp (fun hle ↦ hlife (h.unused id hle))

theorem owner_concat (name : String) (history : List (Call × Answer)) (x : Call × Answer) :
    owner name (history ++ [x]) =
      match x with
      | (.register resource callback, .registered (.ok ())) =>
        if callback = name then some resource else owner name history
      | (.unregister callback, _) => if callback = name then none else owner name history
      | _ => owner name history := by
  rw [owner, List.foldl_concat]
  rfl

theorem Tracks.same (h : Tracks r history) (hnone : ∀ id, milestone id (call, answer) = none)
    (howner : ∀ name, owner name (history ++ [(call, answer)]) = owner name history) :
    Tracks r (history ++ [(call, answer)]) := by
  refine h.unnoticed ⟨rfl, rfl, rfl⟩ hnone (fun name ↦ ?_)
  rw [howner]
  exact h.owners name

theorem Tracks.register (h : Tracks r history) (hok : r.register resource callback = .ok r') :
    Tracks r' (history ++ [(.register resource callback, .registered (.ok ()))]) := by
  rw [register_eq_ok hok]
  refine h.unnoticed ⟨rfl, rfl, rfl⟩ (fun _ ↦ rfl) (fun name ↦ ?_)
  rw [owner_concat, lookup_insert_ite, h.owners]
  simp only [eq_comm]

theorem Tracks.unregister (h : Tracks r history) (callback : String) :
    Tracks (r.unregister callback).1
      (history ++ [(.unregister callback, .unregistered (r.unregister callback).2)]) := by
  refine h.unnoticed ⟨rfl, rfl, rfl⟩ (fun _ ↦ rfl) (fun name ↦ ?_)
  rw [owner_concat, ← h.owners]
  dsimp only [CallbackRegistry.unregister]
  split
  · rename_i heq
    rw [← heq, AList.lookup_erase]
  · rename_i hne
    rw [AList.lookup_erase_ne (Ne.symm hne)]

theorem Tracks.invoke (h : Tracks r history)
    (hok : r.invoke resource callback payload = .ok (r', id)) :
    Tracks r' (history ++ [(.invoke resource callback payload, .invoked (.ok id))]) := by
  obtain ⟨rfl, rfl⟩ := invoke_eq_ok hok
  have hfresh := h.unused r.nextId le_rfl
  have hcourse := h.course r.nextId
  rw [hfresh] at hcourse
  have hmilestone : milestone r.nextId
      (.invoke resource callback payload, .invoked (.ok r.nextId)) =
        some (.invoked ⟨r.nextId, callback, resource, payload⟩) := if_pos rfl
  refine h.noticed rfl (Nat.le_succ _) (fun i hi ↦ ?_) ?_ (Nat.lt_succ_self _)
    (fun name ↦ owner_concat name history _)
  · exact ⟨AList.lookup_insert_ne hi, rfl, if_neg (Ne.symm hi)⟩
  · rw [life_concat, hfresh, AList.lookup_insert, (course_nil hcourse).2, hmilestone]
    exact .waiting _

theorem Tracks.respond (h : Tracks r history) (hok : r.respond id response = .ok r') :
    Tracks r' (history ++ [(.respond id response, .responded (.ok ()))]) := by
  obtain ⟨hanswered, ⟨request, hpending⟩, rfl⟩ := respond_eq_ok hok
  have hcourse := h.course id
  rw [hanswered, hpending] at hcourse
  have hlife := course_waiting hcourse
  have hmilestone : milestone id (.respond id response, .responded (.ok ())) =
      some (.responded response) := if_pos rfl
  refine h.noticed rfl le_rfl (fun i hi ↦ ?_) ?_ (h.used (hlife ▸ List.cons_ne_nil _ _))
    (fun name ↦ owner_concat name history _)
  · exact ⟨AList.lookup_erase_ne hi, AList.lookup_insert_ne hi, if_neg (Ne.symm hi)⟩
  · rw [life_concat, hlife, hmilestone, AList.lookup_erase, AList.lookup_insert]
    exact .answered _ _

theorem Tracks.takeResponse (h : Tracks r history) (id : ℕ) :
    Tracks (r.takeResponse id).1
      (history ++ [(.takeResponse id, .taken (r.takeResponse id).2)]) := by
  dsimp only [CallbackRegistry.takeResponse]
  cases hanswered : r.answered.lookup id with
  | none =>
    refine h.unnoticed ⟨rfl, ?_, rfl⟩ (fun _ ↦ rfl) (fun name ↦ ?_)
    · exact AList.ext (List.kerase_of_notMem_keys (AList.lookup_eq_none.mp hanswered))
    · rw [owner_concat]
      exact h.owners name
  | some response =>
    have hcourse := h.course id
    rw [hanswered] at hcourse
    obtain ⟨request, hpending, hlife⟩ := course_answered hcourse
    have hmilestone : milestone id (.takeResponse id, .taken (some response)) =
        some (.taken response) := if_pos rfl
    refine h.noticed rfl le_rfl (fun i hi ↦ ?_) ?_ (h.used (hlife ▸ List.cons_ne_nil _ _))
      (fun name ↦ owner_concat name history _)
    · exact ⟨rfl, AList.lookup_erase_ne hi, if_neg (Ne.symm hi)⟩
    · rw [life_concat, hlife, hmilestone, AList.lookup_erase, hpending]
      exact .taken _ _

theorem Tracks.step (h : Tracks r history) (call : Call) :
    Tracks (step r call).1 (history ++ [(call, (step r call).2)]) := by
  cases call with
  | register resource callback =>
    unfold Channels.step
    dsimp only
    split
    · rename_i r' hok
      exact h.register hok
    · exact h.same (fun _ ↦ rfl) (fun name ↦ owner_concat name history _)
  | unregister callback => exact h.unregister callback
  | invoke resource callback payload =>
    unfold Channels.step
    dsimp only
    split
    · rename_i r' id hok
      exact h.invoke hok
    · exact h.same (fun _ ↦ rfl) (fun name ↦ owner_concat name history _)
  | respond id response =>
    unfold Channels.step
    dsimp only
    split
    · rename_i r' hok
      exact h.respond hok
    · exact h.same (fun _ ↦ rfl) (fun name ↦ owner_concat name history _)
  | takeResponse id => exact h.takeResponse id

theorem tracks_run (calls : List Call) :
    Tracks (run step .new calls) (answers step .new calls) := by
  induction calls using List.reverseRecOn with
  | nil => exact ⟨fun _ ↦ .unknown, fun _ _ ↦ rfl, fun _ ↦ rfl⟩
  | append_singleton calls call ih =>
    rw [run_concat, answers_concat]
    exact ih.step call

theorem invoke_ok_iff : (∃ id, (step r (.invoke resource callback payload)).2 = .invoked (.ok id)) ↔
    r.handlers.lookup callback = some resource ∧ payload.length ≤ maxMessageLen := by
  unfold Channels.step CallbackRegistry.invoke
  dsimp only
  cases r.handlers.lookup callback with
  | none => simp
  | some name =>
    dsimp only
    by_cases hname : name ≠ resource
    · rw [if_pos hname]
      simp [hname]
    · rw [if_neg hname, ne_eq, not_not] at *
      by_cases hsize : maxMessageLen < payload.length
      · simp [hsize]
      · simp [hsize, hname, not_lt.mp hsize]

/-- In every run a request is first made, then answered once, and its answer is handed out once. It
is made by the resource whose registration of the callback stands, under an id above all that were
used before. -/
theorem answered_once (calls : List Call) :
    (∀ id, Course ((run step .new calls).pending.lookup id)
      ((run step .new calls).answered.lookup id) (life id (answers step .new calls))) ∧
      ∀ resource callback payload,
        ((∃ id, (step (run step .new calls) (.invoke resource callback payload)).2 =
            .invoked (.ok id)) ↔
          owner callback (answers step .new calls) = some resource ∧
            payload.length ≤ maxMessageLen) ∧
        ∀ id, (step (run step .new calls) (.invoke resource callback payload)).2 =
            .invoked (.ok id) →
          ∀ i, life i (answers step .new calls) ≠ [] → i < id := by
  have h := tracks_run calls
  refine ⟨h.course, fun resource callback payload ↦ ⟨?_, fun id hid i hi ↦ ?_⟩⟩
  · rw [invoke_ok_iff, h.owners]
  · unfold Channels.step at hid
    dsimp only at hid
    split at hid
    · rename_i r' id' hok
      cases hid
      rw [(invoke_eq_ok hok).1]
      exact h.used hi
    · cases hid

section Messages

structure MessageQueue where
  queue : List (String × List UInt8)
  capacity : ℕ
  dropped : ℕ

namespace MessageQueue

def new (capacity : ℕ) : MessageQueue := ⟨[], max capacity 1, 0⟩

def send (q : MessageQueue) (resource : String) (payload : List UInt8) :
    Except NuiError MessageQueue := do
  validToken resource .badResource
  if maxMessageLen < payload.length then throw (.messageTooLarge payload.length)
  let q := if q.capacity ≤ q.queue.length then
    { q with queue := q.queue.tail, dropped := q.dropped + 1 } else q
  return { q with queue := q.queue ++ [(resource, payload)] }

def drain (q : MessageQueue) : MessageQueue × List (String × List UInt8) :=
  ({ q with queue := [] }, q.queue)

end MessageQueue

inductive Use
  | send (resource : String) (payload : List UInt8)
  | drain
deriving DecidableEq

inductive Effect
  | sent (result : Except NuiError Unit)
  | drained (messages : List (String × List UInt8))

def use (q : MessageQueue) : Use → MessageQueue × Effect
  | .send resource payload =>
    match q.send resource payload with
    | .ok q => (q, .sent (.ok ()))
    | .error e => (q, .sent (.error e))
  | .drain => (q.drain.1, .drained q.drain.2)

def accepted (history : List (Use × Effect)) : List (String × List UInt8) :=
  history.filterMap fun
    | (.send resource payload, .sent (.ok ())) => some (resource, payload)
    | _ => none

def delivered (history : List (Use × Effect)) : List (String × List UInt8) :=
  history.flatMap fun
    | (_, .drained messages) => messages
    | _ => []

def waiting (history : List (Use × Effect)) : List (String × List UInt8) :=
  accepted (history.reverse.takeWhile (fun x ↦ decide (x.1 ≠ .drain))).reverse

variable {q q' : MessageQueue} {past : List (Use × Effect)} {capacity : ℕ}

theorem send_eq_ok (h : q.send resource payload = .ok q') :
    q' = if q.capacity ≤ q.queue.length then
        { q with queue := q.queue.tail ++ [(resource, payload)], dropped := q.dropped + 1 }
      else { q with queue := q.queue ++ [(resource, payload)] } := by
  unfold MessageQueue.send at h
  simp only [bind, Except.bind, throw, throwThe, MonadExceptOf.throw, pure, Except.pure] at h
  split at h
  · cases h
  · split_ifs at h with hsize hfull
    · cases h
      rw [if_pos hfull]
    · cases h
      rw [if_neg hfull]

theorem rtake_concat {α : Type} {n : ℕ} (hn : 0 < n) (l : List α) (x : α) :
    (l ++ [x]).rtake n =
      if n ≤ (l.rtake n).length then (l.rtake n).tail ++ [x] else l.rtake n ++ [x] := by
  rw [List.rtake, List.rtake, List.length_append, List.length_singleton, List.length_drop,
    List.tail_drop]
  split
  · rw [List.drop_append_of_le_length (by omega)]
    congr 2
    omega
  · rw [List.drop_append_of_le_length (by omega)]
    congr 2
    omega

theorem accepted_append (past more : List (Use × Effect)) :
    accepted (past ++ more) = accepted past ++ accepted more := List.filterMap_append

theorem delivered_append (past more : List (Use × Effect)) :
    delivered (past ++ more) = delivered past ++ delivered more := List.flatMap_append

theorem waiting_concat (past : List (Use × Effect)) (x : Use × Effect) :
    waiting (past ++ [x]) = if x.1 = .drain then [] else waiting past ++ accepted [x] := by
  rw [waiting, waiting, List.reverse_concat, List.takeWhile_cons]
  by_cases hdrain : x.1 = .drain
  · simp [hdrain, accepted]
  · simp only [hdrain, ne_eq, not_false_eq_true, decide_true, if_true, if_false, List.reverse_cons,
      accepted_append]

/-- The queue has the latest messages since the last drain, as many as it may, and every accepted
message is delivered in its turn, still queued, or counted as dropped. -/
structure Accounts (q : MessageQueue) (capacity : ℕ) (history : List (Use × Effect)) : Prop where
  room : q.capacity = max capacity 1
  latest : q.queue = (waiting history).rtake (max capacity 1)
  count : q.dropped + (delivered history).length + q.queue.length = (accepted history).length
  order : (delivered history ++ q.queue).Sublist (accepted history)

theorem Accounts.send (h : Accounts q capacity past) (hok : q.send resource payload = .ok q') :
    Accounts q' capacity (past ++ [(.send resource payload, .sent (.ok ()))]) := by
  have hpositive : 0 < max capacity 1 := by omega
  have hwaiting : waiting (past ++ [(.send resource payload, .sent (.ok ()))]) =
      waiting past ++ [(resource, payload)] := waiting_concat past _
  have hdelivered : delivered (past ++ [(.send resource payload, .sent (.ok ()))]) =
      delivered past := by rw [delivered_append]; exact List.append_nil _
  have haccepted : accepted (past ++ [(.send resource payload, .sent (.ok ()))]) =
      accepted past ++ [(resource, payload)] := accepted_append past _
  have hcount := h.count
  rw [send_eq_ok hok]
  split
  · rename_i hfull
    refine ⟨h.room, ?_, ?_, ?_⟩
    · rw [hwaiting, rtake_concat hpositive, ← h.latest, ← h.room, if_pos hfull]
    · have hroom := h.room
      rw [hdelivered, haccepted, List.length_append, List.length_append, List.length_tail]
      dsimp only [List.length_singleton]
      omega
    · rw [hdelivered, haccepted, ← List.append_assoc]
      refine List.Sublist.append ?_ (List.Sublist.refl _)
      exact ((List.Sublist.refl _).append (List.tail_sublist _)).trans h.order
  · rename_i hroom
    refine ⟨h.room, ?_, ?_, ?_⟩
    · rw [hwaiting, rtake_concat hpositive, ← h.latest, ← h.room, if_neg hroom]
    · rw [hdelivered, haccepted, List.length_append, List.length_append]
      dsimp only
      omega
    · rw [hdelivered, haccepted, ← List.append_assoc]
      exact h.order.append (List.Sublist.refl _)

theorem Accounts.drain (h : Accounts q capacity past) :
    Accounts q.drain.1 capacity (past ++ [(.drain, .drained q.drain.2)]) := by
  have hdelivered : delivered (past ++ [(.drain, .drained q.drain.2)]) =
      delivered past ++ q.queue := by
    rw [delivered_append]
    exact congrArg _ (List.append_nil _)
  have haccepted : accepted (past ++ [(.drain, .drained q.drain.2)]) = accepted past := by
    rw [accepted_append]
    exact List.append_nil _
  have hcount := h.count
  refine ⟨h.room, ?_, ?_, ?_⟩
  · rw [waiting_concat, if_pos rfl, List.rtake_nil]
    rfl
  · rw [hdelivered, haccepted, List.length_append]
    dsimp only [MessageQueue.drain, List.length_nil]
    omega
  · rw [hdelivered, haccepted]
    exact (List.append_nil _).symm ▸ h.order

theorem Accounts.refused (h : Accounts q capacity past) (e : NuiError) :
    Accounts q capacity (past ++ [(.send resource payload, .sent (.error e))]) := by
  have hwaiting : waiting (past ++ [(.send resource payload, .sent (.error e))]) = waiting past :=
    (waiting_concat past _).trans (List.append_nil _)
  have hdelivered : delivered (past ++ [(.send resource payload, .sent (.error e))]) =
      delivered past := (delivered_append past _).trans (List.append_nil _)
  have haccepted : accepted (past ++ [(.send resource payload, .sent (.error e))]) =
      accepted past := (accepted_append past _).trans (List.append_nil _)
  refine ⟨h.room, ?_, ?_, ?_⟩
  · rw [hwaiting]
    exact h.latest
  · rw [hdelivered, haccepted]
    exact h.count
  · rw [hdelivered, haccepted]
    exact h.order

theorem queue_accounts (capacity : ℕ) (uses : List Use) :
    Accounts (run use (.new capacity) uses) capacity (answers use (.new capacity) uses) := by
  induction uses using List.reverseRecOn with
  | nil => exact ⟨rfl, (List.rtake_nil _).symm, rfl, List.Sublist.refl _⟩
  | append_singleton uses u ih =>
    rw [run_concat, answers_concat]
    cases u with
    | send resource payload =>
      unfold use
      dsimp only
      split
      · rename_i hok
        exact ih.send hok
      · exact ih.refused _
    | drain => exact ih.drain

end Messages

section Focus

structure FocusState where
  uiOpen : AList (fun _ : String ↦ Bool)
  focused : Option String
  cursor : Bool
  keepInput : Bool

namespace FocusState

def new : FocusState := ⟨∅, none, false, false⟩

def release (f : FocusState) : FocusState :=
  { f with focused := none, cursor := false, keepInput := false }

def setUiOpen (f : FocusState) (resource : String) (isOpen : Bool) : FocusState :=
  if isOpen then { f with uiOpen := f.uiOpen.insert resource true }
  else
    let f := { f with uiOpen := f.uiOpen.erase resource }
    if f.focused = some resource then f.release else f

def setFocus (f : FocusState) (resource : Option String) (cursor keepInput : Bool) :
    FocusState × Except NuiError Unit :=
  match resource with
  | none => (f.release, .ok ())
  | some r =>
    if (f.uiOpen.lookup r).isNone then (f, .error (.focusWithoutUi r))
    else ({ f with focused := some r, cursor := cursor, keepInput := keepInput }, .ok ())

end FocusState

inductive Gesture
  | setUiOpen (resource : String) (isOpen : Bool)
  | setFocus (resource : Option String) (cursor keepInput : Bool)
deriving DecidableEq

def gesture (f : FocusState) : Gesture → FocusState × Except NuiError Unit
  | .setUiOpen resource isOpen => (f.setUiOpen resource isOpen, .ok ())
  | .setFocus resource cursor keepInput => f.setFocus resource cursor keepInput

/-- Only an open page has the focus, and without one no input is captured. -/
structure Focused (f : FocusState) : Prop where
  shown : ∀ resource, f.focused = some resource → (f.uiOpen.lookup resource).isSome
  released : f.focused = none → f.cursor = false ∧ f.keepInput = false

theorem focused_step {f : FocusState} (h : Focused f) (g : Gesture) : Focused (gesture f g).1 := by
  have hreleased (f : FocusState) : Focused f.release :=
    ⟨fun _ hnone ↦ (Option.some_ne_none _ hnone.symm).elim, fun _ ↦ ⟨rfl, rfl⟩⟩
  cases g with
  | setUiOpen resource isOpen =>
    unfold gesture FocusState.setUiOpen
    dsimp only
    split_ifs with hopen hfocused
    · refine ⟨fun r hr ↦ ?_, h.released⟩
      rw [lookup_insert_ite]
      split
      · rfl
      · exact h.shown r hr
    · exact hreleased _
    · refine ⟨fun r hr ↦ ?_, h.released⟩
      have hne : r ≠ resource := fun heq ↦ hfocused (heq ▸ hr)
      rw [AList.lookup_erase_ne hne]
      exact h.shown r hr
  | setFocus resource cursor keepInput =>
    unfold gesture FocusState.setFocus
    dsimp only
    split
    · exact hreleased f
    · rename_i r
      split_ifs with hnone
      · exact h
      · refine ⟨fun r' hr' ↦ ?_, fun hnone ↦ (Option.some_ne_none _ hnone).elim⟩
        cases hr'
        exact Option.isSome_iff_ne_none.mpr (fun heq ↦ hnone (Option.isNone_iff_eq_none.mpr heq))

theorem focused_run (gestures : List Gesture) : Focused (run gesture .new gestures) := by
  have hnew : Focused .new := ⟨fun _ hnone ↦ (Option.some_ne_none _ hnone.symm).elim,
    fun _ ↦ ⟨rfl, rfl⟩⟩
  have hstep (f : FocusState) (g : Gesture) (h : Focused f) : Focused (gesture f g).1 :=
    focused_step h g
  exact invariant_all hstep hnew gestures

end Focus

end Aldivine.Nui.Channels
