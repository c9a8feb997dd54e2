import Aldivine.Core.Basics
import Aldivine.Foundation.Execution
import Aldivine.Foundation.Stable
import Aldivine.Foundation.Table
import Aldivine.Foundation.Text

namespace Aldivine.Events.Bus

open Core.Error Foundation.Execution Foundation.Stable Foundation.Table Foundation.Text

inductive HandlerPriority
  | low
  | normal
  | high
  | critical
deriving DecidableEq

def HandlerPriority.rank : HandlerPriority → ℕ
  | low => 0
  | normal => 1
  | high => 2
  | critical => 3

instance : LinearOrder HandlerPriority :=
  LinearOrder.lift' HandlerPriority.rank (fun a b h ↦ by
    cases a <;> cases b <;> first | rfl | cases h)

def protectedNamespaces : List String := ["ald", "framework", "server", "internal"]

/-- Handler functions are told apart by `φ`. -/
structure EventHandler (φ : Type) where
  resource : String
  priority : HandlerPriority
  handler : φ
deriving DecidableEq

structure EventBus (φ : Type) where
  handlers : AList (fun _ : String ↦ List (EventHandler φ))

variable {φ ω V : Type}

/-- `sort_by_key(|h| Reverse(h.priority))`. -/
def byPriority (handlers : List (EventHandler φ)) : List (EventHandler φ) :=
  sortBy (fun h ↦ OrderDual.toDual h.priority) handlers

namespace EventBus

def new : EventBus φ := ⟨∅⟩

def listeners (b : EventBus φ) (event : String) : List (EventHandler φ) :=
  (b.handlers.lookup event).getD []

/-- The check of `register`: the namespace, when it is denied to the handler's resource. -/
def denied (event : String) (handler : EventHandler φ) : Option String :=
  (splitOnce ':' event).bind (fun parts ↦
    if parts.1 ∈ protectedNamespaces ∧ ¬"core/".toList <+: handler.resource.toList then
      some parts.1
    else none)

def register (b : EventBus φ) (event : String) (handler : EventHandler φ) :
    EventBus φ × Except AldError Unit :=
  match denied event handler with
  | some ns => (b, .error (.capabilityDenied ("namespace '" ++ ns ++ "' is protected")))
  | none =>
    (⟨b.handlers.insert event (byPriority (b.listeners event ++ [handler]))⟩, .ok ())

def unregisterResource (b : EventBus φ) (resource : String) : EventBus φ :=
  ⟨mapValues (fun handlers ↦ handlers.filter (fun h ↦ decide (h.resource ≠ resource))) b.handlers⟩

end EventBus

/-- A handler may do anything to the state, the bus included. -/
abbrev Invoke (φ ω V : Type) :=
  φ → String → V → EventBus φ × ω → Except AldError Unit × EventBus φ × ω

/-- The handlers are called one after the other, until one fails. -/
def invokeAll (invoke : Invoke φ ω V) (event : String) (data : V) :
    List φ → ℕ → EventBus φ × ω → Except AldError ℕ × EventBus φ × ω
  | [], count, s => (.ok count, s)
  | h :: hs, count, s =>
    match invoke h event data s with
    | (.error e, s) => (.error e, s)
    | (.ok (), s) => invokeAll invoke event data hs (count + 1) s

/-- The handlers are collected under the lock and called outside of it. -/
def dispatch (invoke : Invoke φ ω V) (event : String) (data : V) (s : EventBus φ × ω) :
    Except AldError ℕ × EventBus φ × ω :=
  invokeAll invoke event data ((s.1.listeners event).map (·.handler)) 0 s

inductive Call (φ : Type)
  | register (event : String) (handler : EventHandler φ)
  | unregisterResource (resource : String)

def step (b : EventBus φ) : Call φ → EventBus φ × Except AldError Unit
  | .register event handler => b.register event handler
  | .unregisterResource resource => (b.unregisterResource resource, .ok ())

/-- The registrations for an event that were let in and not taken back, in their order. -/
def standing (event : String) (calls : List (Call φ)) : List (EventHandler φ) :=
  calls.foldl (fun handlers call ↦
    match call with
    | .register name handler =>
      if name = event ∧ EventBus.denied name handler = none then handlers ++ [handler] else handlers
    | .unregisterResource resource =>
      handlers.filter (fun h ↦ decide (h.resource ≠ resource))) []

def descending (handlers : List (EventHandler φ)) : List (EventHandler φ) :=
  [HandlerPriority.critical, .high, .normal, .low].flatMap
    (fun p ↦ handlers.filter (fun h ↦ decide (h.priority = p)))

variable {b : EventBus φ} {event resource : String} {handler : EventHandler φ}
  {calls : List (Call φ)} {call : Call φ} {handlers : List (EventHandler φ)}

theorem listeners_register : ((b.register event handler).1.listeners resource) =
    if event = resource ∧ EventBus.denied event handler = none then
      byPriority (b.listeners event ++ [handler])
    else b.listeners resource := by
  unfold EventBus.register
  split
  · rw [if_neg (by simp [*])]
  · rename_i hallowed
    simp only [EventBus.listeners, lookup_insert_ite, hallowed, and_true, eq_comm (a := event)]
    split
    · rfl
    · rfl

theorem listeners_unregister : (b.unregisterResource resource).listeners event =
    (b.listeners event).filter (fun h ↦ decide (h.resource ≠ resource)) := by
  simp only [EventBus.listeners, EventBus.unregisterResource, lookup_mapValues]
  cases b.handlers.lookup event with
  | none => rfl
  | some handlers => rfl

theorem listeners_run (event : String) (calls : List (Call φ)) :
    (run step .new calls).listeners event = byPriority (standing event calls) := by
  induction calls using List.reverseRecOn with
  | nil => rfl
  | append_singleton calls call ih =>
    rw [run_concat, standing, List.foldl_concat, ← standing]
    cases call with
    | register name handler =>
      simp only [step]
      rw [listeners_register]
      split
      · rename_i h
        rw [h.1, ih]
        exact sortBy_append_sortBy _ _ _
      · exact ih
    | unregisterResource resource =>
      simp only [step]
      rw [listeners_unregister, ih]
      exact filter_sortBy _ _ _

theorem byPriority_eq (handlers : List (EventHandler φ)) :
    byPriority handlers = descending handlers := by
  have hdown : [HandlerPriority.critical, .high, .normal, .low].Pairwise
      (fun p q ↦ OrderDual.toDual p < OrderDual.toDual q) := by
    decide
  have hall (p : HandlerPriority) : p ∈ [HandlerPriority.critical, .high, .normal, .low] := by
    cases p <;> decide
  have hgroups := sortBy_eq_groups (fun h : EventHandler φ ↦ OrderDual.toDual h.priority)
    (List.pairwise_map.mpr hdown)
    (fun (h : EventHandler φ) (_ : h ∈ handlers) ↦ List.mem_map_of_mem (hall h.priority))
  rw [List.flatMap_map] at hgroups
  refine hgroups.trans (List.flatMap_congr (fun p _ ↦ ?_))
  exact List.filter_congr (fun h _ ↦ decide_eq_decide.mpr OrderDual.toDual_inj)

theorem not_denied_of_standing (h : handler ∈ standing event calls) :
    EventBus.denied event handler = none := by
  induction calls using List.reverseRecOn with
  | nil => cases h
  | append_singleton calls call ih =>
    rw [standing, List.foldl_concat, ← standing] at h
    cases call with
    | register name added =>
      dsimp only at h
      split at h
      · rename_i hin
        rcases List.mem_append.mp h with h | h
        · exact ih h
        · rw [List.mem_singleton.mp h, ← hin.1]
          exact hin.2
      · exact ih h
    | unregisterResource resource => exact ih (List.mem_filter.mp h).1

theorem core_of_not_denied {ns rest : String} (h : EventBus.denied event handler = none)
    (hsplit : splitOnce ':' event = some (ns, rest)) (hns : ns ∈ protectedNamespaces) :
    "core/".toList <+: handler.resource.toList := by
  by_contra hcore
  rw [EventBus.denied, hsplit, Option.bind_some, if_pos ⟨hns, hcore⟩] at h
  cases h

theorem invokeAll_ok {invoke : Invoke φ ω V} {data : V} {hs : List φ} {count n : ℕ}
    {s : EventBus φ × ω} (h : (invokeAll invoke event data hs count s).1 = .ok n) :
    n = count + hs.length := by
  induction hs generalizing count s with
  | nil => cases h; rfl
  | cons first hs ih =>
    unfold invokeAll at h
    split at h
    · cases h
    · rw [ih h, List.length_cons]
      omega

/-- A dispatch calls the registrations that stand, the highest priority first and in their order
within one, and counts them if none fails; only handlers of the core stand in a protected
namespace. -/
theorem dispatch_calls_standing (invoke : Invoke φ ω V) (calls : List (Call φ)) (env : ω)
    (event : String) (data : V) :
    dispatch invoke event data (run step .new calls, env) =
        invokeAll invoke event data ((descending (standing event calls)).map (·.handler)) 0
          (run step .new calls, env) ∧
      (∀ n, (dispatch invoke event data (run step .new calls, env)).1 = .ok n →
        n = (standing event calls).length) ∧
      ∀ ns rest, splitOnce ':' event = some (ns, rest) → ns ∈ protectedNamespaces →
        ∀ h ∈ standing event calls, "core/".toList <+: h.resource.toList := by
  have hcalls : dispatch invoke event data (run step .new calls, env) =
      invokeAll invoke event data ((descending (standing event calls)).map (·.handler)) 0
        (run step .new calls, env) := by
    rw [dispatch, listeners_run, byPriority_eq]
  refine ⟨hcalls, fun n hn ↦ ?_, fun ns rest hsplit hns h hmem ↦ ?_⟩
  · rw [hcalls] at hn
    rw [invokeAll_ok hn, List.length_map, ← byPriority_eq, byPriority,
      (sortBy_perm _ _).length_eq, Nat.zero_add]
  · exact core_of_not_denied (not_denied_of_standing hmem) hsplit hns

end Aldivine.Events.Bus
