import Mathlib.Data.List.AList
import Mathlib.Data.List.Find
import Aldivine.Foundation.Execution
import Aldivine.Foundation.Table
import Aldivine.Network.Reliability

namespace Aldivine.Network.Sessions

open Reliability

abbrev SessionId := BitVec 64

inductive SocketAddr
  | v4 (ip : BitVec 32) (port : BitVec 16)
  | v6 (ip : BitVec 128) (port : BitVec 16) (flowinfo scopeId : BitVec 32)
deriving DecidableEq

/-- Instants are counted from an arbitrary start; `lastSeen` is `none` once its lock is poisoned. -/
structure Session where
  id : SessionId
  addr : SocketAddr
  created : ℕ
  lastSeen : Option ℕ
  reliability : ReliabilityState
deriving DecidableEq

namespace Session

def new (id : SessionId) (addr : SocketAddr) (now : ℕ) : Session := ⟨id, addr, now, some now, .new⟩

def touch (s : Session) (now : ℕ) : Session := { s with lastSeen := s.lastSeen.map (fun _ ↦ now) }

def idleFor (s : Session) (now : ℕ) : ℕ :=
  match s.lastSeen with
  | some seen => now - seen
  | none => 0

end Session

structure SessionManager where
  byId : AList (fun _ : SessionId ↦ Session)
  byAddr : AList (fun _ : SocketAddr ↦ SessionId)

namespace SessionManager

def new : SessionManager := ⟨∅, ∅⟩

/-- The id is the one that was drawn at random. -/
def create (m : SessionManager) (id : SessionId) (addr : SocketAddr) (now : ℕ) :
    SessionManager × Session :=
  let s := Session.new id addr now
  ({ m with byAddr := m.byAddr.insert addr id, byId := m.byId.insert id s }, s)

def get (m : SessionManager) (id : SessionId) : Option Session := m.byId.lookup id

def getByAddr (m : SessionManager) (addr : SocketAddr) : Option Session :=
  (m.byAddr.lookup addr).bind m.get

def remove (m : SessionManager) (id : SessionId) : SessionManager × Bool :=
  match m.byId.lookup id with
  | some s => ({ m with byId := m.byId.erase id, byAddr := m.byAddr.erase s.addr }, true)
  | none => (m, false)

/-- The clock is read anew for each session. -/
def dead (m : SessionManager) (now : SessionId → ℕ) (timeout : ℕ) : List SessionId :=
  (m.byId.entries.filter (fun e ↦ e.2.idleFor (now e.1) > timeout)).map (·.1)

def expireIdle (m : SessionManager) (now : SessionId → ℕ) (timeout : ℕ) :
    SessionManager × List SessionId :=
  ((m.dead now timeout).foldl (fun m id ↦ (m.remove id).1) m, m.dead now timeout)

/-- A change to a session that is shared with the manager. -/
def update (m : SessionManager) (id : SessionId) (f : Session → Session) : SessionManager :=
  match m.byId.lookup id with
  | some s => { m with byId := m.byId.insert id (f s) }
  | none => m

end SessionManager

inductive Call
  | create (id : SessionId) (addr : SocketAddr) (now : ℕ)
  | remove (id : SessionId)
  | expireIdle (now : SessionId → ℕ) (timeout : ℕ)
  | touch (id : SessionId) (now : ℕ)
  | poison (id : SessionId)

inductive Reply
  | created (s : Session)
  | removed (existed : Bool)
  | expired (ids : List SessionId)
  | done

def step (m : SessionManager) : Call → SessionManager × Reply
  | .create id addr now => ((m.create id addr now).1, .created (m.create id addr now).2)
  | .remove id => ((m.remove id).1, .removed (m.remove id).2)
  | .expireIdle now timeout => ((m.expireIdle now timeout).1, .expired (m.expireIdle now timeout).2)
  | .touch id now => (m.update id (·.touch now), .done)
  | .poison id => (m.update id ({ · with lastSeen := none }), .done)

end Aldivine.Network.Sessions

namespace Aldivine.Network.Addresses

open Foundation.Execution Foundation.Table Sessions

def addrOf (m : SessionManager) (id : SessionId) : Option SocketAddr := (m.get id).map (·.addr)

def createdId : Call → Option SessionId
  | .create id _ _ => some id
  | _ => none

def created (history : List (Call × Reply)) : List SessionId :=
  history.filterMap (fun x ↦ createdId x.1)

def newest (m : SessionManager) (ids : List SessionId) (addr : SocketAddr) : Option SessionId :=
  ids.reverse.find? (fun id ↦ addrOf m id = some addr)

structure Reachable (m : SessionManager) (history : List (Call × Reply)) : Prop where
  returned : ∀ addr, m.getByAddr addr = (newest m (created history) addr).bind m.get
  live : ∀ addr, (m.getByAddr addr).isSome ↔ ∃ id, addrOf m id = some addr

def dropped (m : SessionManager) : Call → List SessionId
  | .remove id => [id]
  | .expireIdle now timeout => m.dead now timeout
  | _ => []

def KeepsOthers (m : SessionManager) (call : Call) : Prop :=
  dropped m call ≠ [] → ∀ s, m.getByAddr s.addr = some s →
    (step m call).1.get s.id = some s → (step m call).1.getByAddr s.addr = some s

def AllReached (calls : List Call) : Prop :=
  (∀ before, before <+: calls → Reachable (run step .new before) (answers step .new before)) ∧
    ∀ x ∈ trace step .new calls, KeepsOthers x.1 x.2

/-- A session that shares its address with a dropped one is dropped as well. -/
def DropsWhole (m : SessionManager) (call : Call) : Prop :=
  ∀ id ∈ dropped m call, ∀ addr, addrOf m id = some addr →
    ∀ other, addrOf m other = some addr → other ∈ dropped m call

structure Consistent (m : SessionManager) (history : List (Call × Reply)) : Prop where
  stored : ∀ id s, m.get id = some s → s.id = id
  listed : ∀ id addr, addrOf m id = some addr → id ∈ created history
  mapped : ∀ addr id, m.byAddr.lookup addr = some id → addrOf m id = some addr

variable {m m' : SessionManager} {history : List (Call × Reply)} {id : SessionId}
  {addr : SocketAddr}

theorem addrOf_eq_some : addrOf m id = some addr ↔ ∃ s, m.get id = some s ∧ s.addr = addr :=
  Option.map_eq_some_iff

section Lookup

theorem newest_mem {ids : List SessionId} (h : newest m ids addr = some id) :
    addrOf m id = some addr := by
  have hfound := List.find?_some h
  simpa using hfound

theorem newest_ne_none {ids : List SessionId} (hid : id ∈ ids) (haddr : addrOf m id = some addr) :
    newest m ids addr ≠ none := by
  intro hnone
  have hno := List.find?_eq_none.mp hnone id (List.mem_reverse.mpr hid)
  simp [haddr] at hno

theorem newest_congr {ids : List SessionId}
    (h : ∀ id ∈ ids, addrOf m' id = some addr ↔ addrOf m id = some addr) :
    newest m' ids addr = newest m ids addr := by
  refine List.find?_congr (fun id hid ↦ ?_)
  exact decide_eq_decide.mpr (h id (List.mem_reverse.mp hid))

/-- Seen from the maps, an address leads to its newest live session. -/
theorem reachable_iff (hcons : Consistent m history) :
    Reachable m history ↔ ∀ addr, m.byAddr.lookup addr = newest m (created history) addr := by
  constructor
  · intro hreach addr
    have hreturned := hreach.returned addr
    rw [SessionManager.getByAddr] at hreturned
    cases hlook : m.byAddr.lookup addr with
    | none =>
      cases hnew : newest m (created history) addr with
      | none => rfl
      | some id =>
        obtain ⟨s, hs, -⟩ := addrOf_eq_some.mp (newest_mem hnew)
        rw [hlook, hnew, Option.bind_none, Option.bind_some, hs] at hreturned
        cases hreturned
    | some id =>
      obtain ⟨s, hs, -⟩ := addrOf_eq_some.mp (hcons.mapped addr id hlook)
      rw [hlook, Option.bind_some, hs] at hreturned
      obtain ⟨id', hnew, hs'⟩ := Option.bind_eq_some_iff.mp hreturned.symm
      rw [hnew, ← hcons.stored id s hs, hcons.stored id' s hs']
  · intro hlook
    refine ⟨fun addr ↦ ?_, fun addr ↦ ⟨fun hsome ↦ ?_, fun hlive ↦ ?_⟩⟩
    · rw [SessionManager.getByAddr, hlook]
    · obtain ⟨s, hs⟩ := Option.isSome_iff_exists.mp hsome
      obtain ⟨id, hid, -⟩ := Option.bind_eq_some_iff.mp hs
      exact ⟨id, hcons.mapped addr id hid⟩
    · obtain ⟨id, hid⟩ := hlive
      obtain ⟨id', hnew⟩ := Option.ne_none_iff_exists'.mp
        (newest_ne_none (hcons.listed id addr hid) hid)
      obtain ⟨s, hs, -⟩ := addrOf_eq_some.mp (newest_mem hnew)
      rw [SessionManager.getByAddr, hlook, hnew, Option.bind_some, hs]
      rfl

end Lookup

section Dropping

def removeAll (m : SessionManager) (ids : List SessionId) : SessionManager :=
  ids.foldl (fun m id ↦ (m.remove id).1) m

theorem get_remove (other : SessionId) :
    (m.remove id).1.get other = if other = id then none else m.get other := by
  unfold SessionManager.remove SessionManager.get
  split
  · split
    · subst_vars
      exact AList.lookup_erase _ _
    · exact AList.lookup_erase_ne ‹_›
  · split
    · subst_vars
      assumption
    · rfl

theorem byAddr_remove :
    (m.remove id).1.byAddr.lookup addr =
      if addrOf m id = some addr then none else m.byAddr.lookup addr := by
  unfold SessionManager.remove
  cases hs : m.byId.lookup id with
  | none =>
    have hgone : addrOf m id ≠ some addr := by simp [addrOf, SessionManager.get, hs]
    rw [if_neg hgone]
  | some s =>
    have haddr : addrOf m id = some s.addr := by simp [addrOf, SessionManager.get, hs]
    rw [haddr]
    by_cases heq : s.addr = addr
    · subst heq
      rw [if_pos rfl]
      exact AList.lookup_erase _ _
    · rw [if_neg (fun h ↦ heq (Option.some.inj h))]
      exact AList.lookup_erase_ne (Ne.symm heq)

theorem get_removeAll (ids : List SessionId) (other : SessionId) :
    (removeAll m ids).get other = if other ∈ ids then none else m.get other := by
  induction ids generalizing m with
  | nil => rfl
  | cons id ids ih =>
    rw [removeAll, List.foldl_cons, ← removeAll, ih, get_remove]
    by_cases heq : other = id
    · simp [heq]
    · simp [heq]

theorem addrOf_removeAll (ids : List SessionId) (other : SessionId) :
    addrOf (removeAll m ids) other = if other ∈ ids then none else addrOf m other := by
  rw [addrOf, get_removeAll]
  split <;> rfl

theorem byAddr_removeAll (ids : List SessionId) :
    (removeAll m ids).byAddr.lookup addr =
      if ∃ id ∈ ids, addrOf m id = some addr then none else m.byAddr.lookup addr := by
  induction ids generalizing m with
  | nil => simp [removeAll]
  | cons id ids ih =>
    have haddr (other : SessionId) :
        addrOf (m.remove id).1 other = if other = id then none else addrOf m other := by
      rw [addrOf, get_remove]
      split <;> rfl
    rw [removeAll, List.foldl_cons, ← removeAll, ih, byAddr_remove]
    by_cases hid : addrOf m id = some addr
    · have hgone : ∃ other ∈ id :: ids, addrOf m other = some addr := ⟨id, List.mem_cons_self, hid⟩
      rw [if_pos hid, if_pos hgone]
      split <;> rfl
    · -- the session that is gone was not at this address anyway
      rw [if_neg hid]
      refine if_congr ?_ rfl rfl
      constructor
      · rintro ⟨other, hother, h⟩
        rw [haddr] at h
        split at h
        · cases h
        · exact ⟨other, List.mem_cons_of_mem _ hother, h⟩
      · rintro ⟨other, hother, h⟩
        have hne : other ≠ id := fun heq ↦ hid (heq ▸ h)
        refine ⟨other, (List.mem_cons.mp hother).resolve_left hne, ?_⟩
        rw [haddr, if_neg hne]
        exact h

theorem consistent_removeAll {x : Call × Reply} (ids : List SessionId)
    (hcons : Consistent m history) (hcreated : created (history ++ [x]) = created history) :
    Consistent (removeAll m ids) (history ++ [x]) := by
  refine ⟨fun id s hs ↦ ?_, fun id addr hid ↦ ?_, fun addr id hid ↦ ?_⟩
  · rw [get_removeAll] at hs
    split at hs
    · cases hs
    · exact hcons.stored id s hs
  · rw [addrOf_removeAll] at hid
    rw [hcreated]
    split at hid
    · cases hid
    · exact hcons.listed id addr hid
  · rw [byAddr_removeAll] at hid
    split at hid
    · cases hid
    · rename_i hnone
      have haddr := hcons.mapped addr id hid
      rw [addrOf_removeAll, if_neg (fun hmem ↦ hnone ⟨id, hmem, haddr⟩)]
      exact haddr

theorem reachable_removeAll_iff {x : Call × Reply} {ids : List SessionId}
    (hcons : Consistent m history) (hreach : Reachable m history)
    (hcreated : created (history ++ [x]) = created history) :
    Reachable (removeAll m ids) (history ++ [x]) ↔
      ∀ id ∈ ids, ∀ addr, addrOf m id = some addr →
        ∀ other, addrOf m other = some addr → other ∈ ids := by
  constructor
  · intro hreach' id hid addr haddr other hother
    by_contra hnot
    have hlive : ∃ id, addrOf (removeAll m ids) id = some addr :=
      ⟨other, by rw [addrOf_removeAll, if_neg hnot]; exact hother⟩
    have hsome := (hreach'.live addr).mpr hlive
    have hgone : ∃ id ∈ ids, addrOf m id = some addr := ⟨id, hid, haddr⟩
    rw [SessionManager.getByAddr, byAddr_removeAll, if_pos hgone] at hsome
    cases hsome
  · intro hwhole
    rw [reachable_iff (consistent_removeAll _ hcons hcreated), hcreated]
    intro addr
    rw [byAddr_removeAll]
    split
    · rename_i hgone
      obtain ⟨id, hid, haddr⟩ := hgone
      symm
      rw [newest, List.find?_eq_none]
      intro other _ hother
      rw [decide_eq_true_iff, addrOf_removeAll] at hother
      split at hother
      · cases hother
      · exact absurd (hwhole id hid addr haddr other hother) ‹_›
    · rename_i hnone
      rw [(reachable_iff hcons).mp hreach addr]
      refine (newest_congr (fun id _ ↦ ?_)).symm
      rw [addrOf_removeAll]
      split
      · rename_i hid
        exact iff_of_false (Option.some_ne_none _).symm (fun haddr ↦ hnone ⟨id, hid, haddr⟩)
      · rfl

end Dropping

section Steps

variable {call : Call} {reply : Reply}

theorem created_concat_other (hcall : createdId call = none) :
    created (history ++ [(call, reply)]) = created history := by
  simp [created, hcall]

theorem created_concat_create {now : ℕ} :
    created (history ++ [(.create id addr now, reply)]) = created history ++ [id] := by
  simp [created, createdId]

theorem get_update {f : Session → Session} (hf : ∀ s, (f s).id = s.id)
    {other : SessionId} {s : Session} (hs : (m.update id f).get other = some s) :
    ∃ s', m.get other = some s' ∧ s.id = s'.id := by
  unfold SessionManager.update SessionManager.get at *
  split at hs
  · rename_i old hold
    by_cases heq : other = id
    · subst heq
      rw [AList.lookup_insert] at hs
      cases hs
      exact ⟨old, hold, hf old⟩
    · rw [AList.lookup_insert_ne heq] at hs
      exact ⟨s, hs, rfl⟩
  · exact ⟨s, hs, rfl⟩

theorem addrOf_update (m : SessionManager) (id : SessionId) {f : Session → Session}
    (hf : ∀ s, (f s).addr = s.addr) (other : SessionId) :
    addrOf (m.update id f) other = addrOf m other := by
  unfold addrOf SessionManager.update SessionManager.get
  split
  · rename_i s hs
    by_cases heq : other = id
    · subst heq
      rw [AList.lookup_insert, hs, Option.map_some, Option.map_some, hf]
    · rw [AList.lookup_insert_ne heq]
  · rfl

theorem byAddr_update {f : Session → Session} : (m.update id f).byAddr = m.byAddr := by
  unfold SessionManager.update
  split <;> rfl

theorem consistent_update {f : Session → Session} (hcons : Consistent m history)
    (hcall : createdId call = none) (hf : ∀ s, (f s).id = s.id ∧ (f s).addr = s.addr) :
    Consistent (m.update id f) (history ++ [(call, reply)]) := by
  have haddr := addrOf_update m id (fun s ↦ (hf s).2)
  refine ⟨fun other s hs ↦ ?_, fun other addr hother ↦ ?_, fun addr other hother ↦ ?_⟩
  · obtain ⟨s', hs', hid⟩ := get_update (fun s ↦ (hf s).1) hs
    rw [hid]
    exact hcons.stored other s' hs'
  · rw [haddr] at hother
    rw [created_concat_other hcall]
    exact hcons.listed other addr hother
  · rw [byAddr_update] at hother
    rw [haddr]
    exact hcons.mapped addr other hother

theorem reachable_update {f : Session → Session} (hcons : Consistent m history)
    (hreach : Reachable m history) (hcall : createdId call = none)
    (hf : ∀ s, (f s).id = s.id ∧ (f s).addr = s.addr) :
    Reachable (m.update id f) (history ++ [(call, reply)]) := by
  refine (reachable_iff (consistent_update hcons hcall hf)).mpr (fun addr ↦ ?_)
  rw [byAddr_update, created_concat_other hcall, (reachable_iff hcons).mp hreach addr]
  refine (newest_congr (fun other _ ↦ ?_)).symm
  rw [addrOf_update m id (fun s ↦ (hf s).2)]

theorem get_create {now : ℕ} (other : SessionId) :
    (m.create id addr now).1.get other =
      if other = id then some (.new id addr now) else m.get other :=
  lookup_insert_ite other _

theorem addrOf_create {now : ℕ} (other : SessionId) :
    addrOf (m.create id addr now).1 other = if other = id then some addr else addrOf m other := by
  rw [addrOf, get_create]
  split <;> rfl

theorem addrOf_create_of_mem {now : ℕ} {other : SessionId} (hfresh : id ∉ created history)
    (hother : other ∈ created history) :
    addrOf (m.create id addr now).1 other = addrOf m other := by
  rw [addrOf_create, if_neg]
  rintro rfl
  exact hfresh hother

theorem byAddr_create {now : ℕ} (a : SocketAddr) :
    (m.create id addr now).1.byAddr.lookup a =
      if a = addr then some id else m.byAddr.lookup a :=
  lookup_insert_ite a _

theorem consistent_create {now : ℕ} (hcons : Consistent m history) (hfresh : id ∉ created history) :
    Consistent (m.create id addr now).1 (history ++ [(.create id addr now, reply)]) := by
  refine ⟨fun other s hs ↦ ?_, fun other a hother ↦ ?_, fun a other hother ↦ ?_⟩
  · rw [get_create] at hs
    split at hs
    · subst_vars
      cases hs
      rfl
    · exact hcons.stored other s hs
  · rw [created_concat_create]
    rw [addrOf_create] at hother
    split at hother
    · subst_vars
      exact List.mem_append_right _ List.mem_cons_self
    · exact List.mem_append_left _ (hcons.listed other a hother)
  · rw [byAddr_create] at hother
    split at hother
    · subst_vars
      cases hother
      rw [addrOf_create, if_pos rfl]
    · have hmapped := hcons.mapped a other hother
      rw [addrOf_create_of_mem hfresh (hcons.listed other a hmapped)]
      exact hmapped

theorem reachable_create {now : ℕ} (hcons : Consistent m history) (hreach : Reachable m history)
    (hfresh : id ∉ created history) :
    Reachable (m.create id addr now).1 (history ++ [(.create id addr now, reply)]) := by
  refine (reachable_iff (consistent_create hcons hfresh)).mpr (fun a ↦ ?_)
  rw [byAddr_create, created_concat_create, newest, List.reverse_append, List.reverse_singleton,
    List.singleton_append, List.find?_cons, addrOf_create, if_pos rfl]
  by_cases heq : a = addr
  · subst heq
    simp
  · have hne : ¬some addr = some a := fun h ↦ heq (Option.some.inj h).symm
    rw [if_neg heq, decide_eq_false hne, (reachable_iff hcons).mp hreach a]
    refine (newest_congr (fun other hother ↦ ?_)).symm
    rw [addrOf_create_of_mem hfresh hother]

theorem step_consistent (hfresh : ∀ id, createdId call = some id → id ∉ created history)
    (hcons : Consistent m history) :
    Consistent (step m call).1 (history ++ [(call, (step m call).2)]) := by
  cases call with
  | create id addr now => exact consistent_create hcons (hfresh id rfl)
  | remove id => exact consistent_removeAll [id] hcons (created_concat_other rfl)
  | expireIdle now timeout => exact consistent_removeAll _ hcons (created_concat_other rfl)
  | touch id now => exact consistent_update hcons rfl (fun _ ↦ ⟨rfl, rfl⟩)
  | poison id => exact consistent_update hcons rfl (fun _ ↦ ⟨rfl, rfl⟩)

theorem keepsOthers_removeAll {ids : List SessionId} (hcons : Consistent m history)
    (hwhole : ∀ id ∈ ids, ∀ addr, addrOf m id = some addr →
      ∀ other, addrOf m other = some addr → other ∈ ids)
    {s : Session} (hs : m.getByAddr s.addr = some s) (hkept : (removeAll m ids).get s.id = some s) :
    (removeAll m ids).getByAddr s.addr = some s := by
  obtain ⟨id, hlook, hget⟩ := Option.bind_eq_some_iff.mp hs
  obtain rfl := hcons.stored id s hget
  have hnot : s.id ∉ ids := by
    intro hmem
    rw [get_removeAll, if_pos hmem] at hkept
    cases hkept
  have hnone : ¬∃ id ∈ ids, addrOf m id = some s.addr := by
    rintro ⟨id, hid, haddr⟩
    exact hnot (hwhole id hid s.addr haddr s.id (hcons.mapped s.addr s.id hlook))
  rw [SessionManager.getByAddr, byAddr_removeAll, if_neg hnone, hlook]
  exact hkept

theorem step_reachable_iff (hfresh : ∀ id, createdId call = some id → id ∉ created history)
    (hcons : Consistent m history) (hreach : Reachable m history) :
    Reachable (step m call).1 (history ++ [(call, (step m call).2)]) ∧ KeepsOthers m call ↔
      DropsWhole m call := by
  -- a call that drops nothing has nothing to spare
  have hnothing (hdropped : dropped m call = [])
      (hnext : Reachable (step m call).1 (history ++ [(call, (step m call).2)])) :
      Reachable (step m call).1 (history ++ [(call, (step m call).2)]) ∧ KeepsOthers m call ↔
        DropsWhole m call := by
    refine iff_of_true ⟨hnext, fun hne ↦ absurd hdropped hne⟩ ?_
    rw [DropsWhole, hdropped]
    exact List.forall_mem_nil _
  have hdropping (ids : List SessionId) (hcreate : createdId call = none)
      (hdropped : dropped m call = ids) (hstep : (step m call).1 = removeAll m ids) :
      Reachable (step m call).1 (history ++ [(call, (step m call).2)]) ∧ KeepsOthers m call ↔
        DropsWhole m call := by
    rw [DropsWhole, KeepsOthers, hdropped, hstep,
      reachable_removeAll_iff hcons hreach (created_concat_other hcreate)]
    refine ⟨fun h ↦ h.1, fun hwhole ↦ ⟨hwhole, fun _ s hs hkept ↦ ?_⟩⟩
    exact keepsOthers_removeAll hcons hwhole hs hkept
  cases call with
  | create id addr now => exact hnothing rfl (reachable_create hcons hreach (hfresh id rfl))
  | remove id => exact hdropping [id] rfl rfl rfl
  | expireIdle now timeout => exact hdropping (m.dead now timeout) rfl rfl rfl
  | touch id now =>
    exact hnothing rfl (reachable_update hcons hreach rfl (fun _ ↦ ⟨rfl, rfl⟩))
  | poison id =>
    exact hnothing rfl (reachable_update hcons hreach rfl (fun _ ↦ ⟨rfl, rfl⟩))

/-- Every address leads to its newest live session exactly as long as no call drops one of several
sessions of an address. -/
theorem addresses_reach_iff (calls : List Call) (hfresh : (calls.filterMap createdId).Nodup) :
    AllReached calls ↔ ∀ x ∈ trace step .new calls, DropsWhole x.1 x.2 := by
  have hadmissible : Throughout step .new
      (fun _ history call ↦ ∀ id, createdId call = some id → id ∉ created history) calls := by
    intro before call hpre id hid hmem
    have hnodup := (hpre.sublist.filterMap createdId).nodup hfresh
    rw [List.filterMap_append, List.filterMap_cons_some hid, List.filterMap_nil,
      List.nodup_append_comm, List.singleton_append] at hnodup
    refine (List.nodup_cons.mp hnodup).1 ?_
    rw [← answers_inputs step .new before, List.filterMap_map]
    exact hmem
  have hempty : Consistent .new [] := by
    refine ⟨fun id s h ↦ ?_, fun id addr h ↦ ?_, fun addr id h ↦ ?_⟩
    · cases h
    · cases h
    · cases h
  rw [AllReached, ← throughout_trace, ← throughout_trace]
  refine throughout_run_iff (B := Consistent) ?_ ?_ hempty
    ((reachable_iff hempty).mpr (fun _ ↦ rfl)) calls hadmissible
  · intro m history call hadm hcons _
    exact step_consistent hadm hcons
  · intro m history call hadm hcons hreach
    exact step_reachable_iff hadm hcons hreach

end Steps

def home : SocketAddr := .v4 0x7f000001 1000

theorem one_after_another_reached :
    AllReached [.create 1 home 0, .remove 1, .create 2 home 5] := by
  refine (addresses_reach_iff _ (by decide)).mpr ?_
  intro x hx id hid addr haddr other hother
  simp only [trace, List.mem_cons, List.not_mem_nil, or_false] at hx
  rcases hx with rfl | rfl | rfl
  · cases hid
  · have hmem : addrOf (SessionManager.new.create 1 home 0).1 other = some addr := hother
    rw [addrOf_create] at hmem
    split at hmem
    · subst_vars
      exact List.mem_cons_self
    · cases hmem
  · cases hid

/-- Removing the older of two sessions of an address makes the newer one unreachable. -/
theorem reconnected_not_reached :
    ¬AllReached [.create 1 home 0, .create 2 home 5, .remove 1] := by
  rintro ⟨hreach, -⟩
  have hlive := (hreach _ List.prefix_rfl).live home
  exact Bool.false_ne_true (hlive.mpr ⟨2, rfl⟩)

end Aldivine.Network.Addresses
