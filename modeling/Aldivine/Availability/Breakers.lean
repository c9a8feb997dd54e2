import Aldivine.Foundation.Execution
import Aldivine.Foundation.Machine
import Aldivine.Foundation.Stable

namespace Aldivine.Availability.Breakers

open Foundation.Execution Foundation.Machine Foundation.Stable

section Breaker

inductive CircuitState
  | closed
  | open (trippedAtMs : ℕ)
  | halfOpen
deriving DecidableEq

structure CircuitBreaker where
  state : CircuitState
  failureThreshold : BitVec 32
  cooldownMs : ℕ
  consecutiveFailures : BitVec 32
deriving DecidableEq

inductive Answer
  | may (answer : Bool)
  | recorded
  | panicked
deriving DecidableEq

namespace CircuitBreaker

def new (failureThreshold : BitVec 32) (cooldownMs : ℕ) : CircuitBreaker :=
  ⟨.closed, failureThreshold, cooldownMs, 0⟩

/-- `saturating_sub` is the subtraction of natural numbers. -/
def canExecute (b : CircuitBreaker) (nowMs : ℕ) : CircuitBreaker × Bool :=
  match b.state with
  | .closed => (b, true)
  | .open trippedAtMs =>
    if nowMs - trippedAtMs ≥ b.cooldownMs then ({ b with state := .halfOpen }, true)
    else (b, false)
  | .halfOpen => (b, true)

def recordSuccess (b : CircuitBreaker) : CircuitBreaker :=
  { b with consecutiveFailures := 0, state := .closed }

def recordFailure (mode : Overflow) (b : CircuitBreaker) (nowMs : ℕ) : CircuitBreaker × Answer :=
  match mode.add b.consecutiveFailures 1 with
  | none => (b, .panicked)
  | some failures =>
    if failures ≥ b.failureThreshold then
      ({ b with consecutiveFailures := failures, state := .open nowMs }, .recorded)
    else ({ b with consecutiveFailures := failures }, .recorded)

end CircuitBreaker

inductive Call
  | canExecute (nowMs : ℕ)
  | recordSuccess
  | recordFailure (nowMs : ℕ)
deriving DecidableEq

def Call.isFailure : Call → Bool
  | .recordFailure _ => true
  | _ => false

def step (mode : Overflow) (b : CircuitBreaker) : Call → CircuitBreaker × Answer
  | .canExecute nowMs => ((b.canExecute nowMs).1, .may (b.canExecute nowMs).2)
  | .recordSuccess => (b.recordSuccess, .recorded)
  | .recordFailure nowMs => b.recordFailure mode nowMs

def streak (calls : List Call) : ℕ :=
  (calls.reverse.takeWhile (· ≠ .recordSuccess)).countP Call.isFailure

/-- A failure at `t` was the last of at least `threshold` in a row, and nothing but refusals came
after it. -/
def Tripped (threshold : ℕ) (history : List (Call × Answer)) (t : ℕ) : Prop :=
  ∃ before after, history = before ++ (.recordFailure t, .recorded) :: after ∧
    threshold ≤ streak (before.map (·.1)) + 1 ∧
    ∀ x ∈ after, ∃ now, x = (.canExecute now, .may false)

variable {mode : Overflow} {b : CircuitBreaker} {calls : List Call} {call : Call}
  {history : List (Call × Answer)} {x : Call × Answer} {threshold t now cooldown : ℕ}

theorem streak_concat (calls : List Call) (call : Call) : streak (calls ++ [call]) =
    if call = .recordSuccess then 0 else streak calls + if call.isFailure then 1 else 0 := by
  rw [streak, List.reverse_concat, List.takeWhile_cons]
  split
  · rename_i h
    rw [if_neg (by simpa using h), List.countP_cons]
    rfl
  · rename_i h
    rw [if_pos (by simpa using h)]
    rfl

theorem streak_le (calls : List Call) : streak calls ≤ calls.countP Call.isFailure := by
  calc streak calls ≤ calls.reverse.countP Call.isFailure := (List.takeWhile_sublist _).countP_le
    _ = calls.countP Call.isFailure := List.countP_reverse

/-- A breaker stays tripped over refusals and is tripped by a failure, nothing else. -/
theorem tripped_concat : Tripped threshold (history ++ [x]) t ↔
    x = (.recordFailure t, .recorded) ∧ threshold ≤ streak (history.map (·.1)) + 1 ∨
      (∃ now, x = (.canExecute now, .may false)) ∧ Tripped threshold history t := by
  constructor
  · rintro ⟨before, after, heq, hle, hafter⟩
    rcases List.eq_nil_or_concat after with rfl | ⟨after, last, rfl⟩
    · obtain ⟨rfl, hx⟩ := List.append_inj' heq rfl
      exact .inl ⟨List.singleton_inj.mp hx, hle⟩
    · rw [List.concat_eq_append] at heq hafter
      rw [← List.cons_append, ← List.append_assoc] at heq
      obtain ⟨rfl, hx⟩ := List.append_inj' heq rfl
      rw [List.forall_mem_append, List.forall_mem_singleton] at hafter
      exact .inr ⟨(List.singleton_inj.mp hx) ▸ hafter.2, before, after, rfl, hle, hafter.1⟩
  · rintro (⟨rfl, hle⟩ | ⟨hx, before, after, rfl, hle, hafter⟩)
    · exact ⟨history, [], rfl, hle, List.forall_mem_nil _⟩
    · refine ⟨before, after ++ [x], by simp, hle, ?_⟩
      rw [List.forall_mem_append, List.forall_mem_singleton]
      exact ⟨hafter, hx⟩

/-- The breaker counts the failures in a row and is open exactly when it is tripped. -/
structure Sound (threshold : BitVec 32) (cooldown : ℕ) (history : List (Call × Answer))
    (b : CircuitBreaker) : Prop where
  threshold_eq : b.failureThreshold = threshold
  cooldown_eq : b.cooldownMs = cooldown
  count : b.consecutiveFailures.toNat = streak (history.map (·.1))
  open_iff : ∀ t, b.state = .open t ↔ Tripped threshold.toNat history t

theorem not_tripped_nil : ¬Tripped threshold [] t := by
  rintro ⟨before, after, heq, -, -⟩
  exact List.append_ne_nil_of_right_ne_nil _ (List.cons_ne_nil _ _) heq.symm

theorem sound_new (threshold : BitVec 32) (cooldown : ℕ) :
    Sound threshold cooldown [] (.new threshold cooldown) :=
  ⟨rfl, rfl, rfl, fun _ ↦ iff_of_false CircuitState.noConfusion not_tripped_nil⟩

theorem streak_tripped (h : Tripped threshold history t) :
    threshold ≤ streak (history.map (·.1)) := by
  induction history using List.reverseRecOn with
  | nil => exact absurd h not_tripped_nil
  | append_singleton history x ih =>
    rw [List.map_append, List.map_singleton, streak_concat]
    rcases tripped_concat.mp h with ⟨rfl, hle⟩ | ⟨⟨now, rfl⟩, hold⟩
    · exact hle
    · exact ih hold

section Steps

variable {bound : BitVec 32} (h : Sound bound cooldown history b)

include h

theorem Sound.allowed (state : CircuitState) (now : ℕ) (hstate : ∀ t, state ≠ .open t) :
    Sound bound cooldown (history ++ [(.canExecute now, .may true)]) { b with state := state } := by
  refine ⟨h.threshold_eq, h.cooldown_eq, ?_, fun t ↦ iff_of_false (hstate t) ?_⟩
  · rw [List.map_append, List.map_singleton, streak_concat]
    exact h.count
  · rw [tripped_concat]
    rintro (⟨heq, -⟩ | ⟨⟨now', heq⟩, -⟩)
    · cases heq
    · cases heq

theorem Sound.refused (now : ℕ) :
    Sound bound cooldown (history ++ [(.canExecute now, .may false)]) b := by
  refine ⟨h.threshold_eq, h.cooldown_eq, ?_, fun t ↦ (h.open_iff t).trans ?_⟩
  · rw [List.map_append, List.map_singleton, streak_concat]
    exact h.count
  · rw [tripped_concat]
    constructor
    · exact fun htripped ↦ .inr ⟨⟨now, rfl⟩, htripped⟩
    · rintro (⟨heq, -⟩ | ⟨-, htripped⟩)
      · cases heq
      · exact htripped

theorem Sound.canExecute_iff (now : ℕ) : (b.canExecute now).2 = false ↔
    ∃ t, Tripped bound.toNat history t ∧ now - t < cooldown := by
  simp only [← h.open_iff, ← h.cooldown_eq]
  unfold CircuitBreaker.canExecute
  cases hstate : b.state with
  | closed => simp
  | halfOpen => simp
  | «open» t =>
    dsimp only
    split
    · rename_i hcool
      refine iff_of_false Bool.noConfusion ?_
      rintro ⟨t', heq, hlt⟩
      cases heq
      exact Nat.not_lt.mpr hcool hlt
    · rename_i hcool
      exact iff_of_true rfl ⟨t, rfl, Nat.not_le.mp hcool⟩

theorem Sound.canExecute (now : ℕ) :
    Sound bound cooldown (history ++ [(.canExecute now, .may (b.canExecute now).2)])
      (b.canExecute now).1 := by
  unfold CircuitBreaker.canExecute
  cases hstate : b.state with
  | closed =>
    have hnext := h.allowed b.state now (by simp [hstate])
    exact hnext
  | halfOpen =>
    have hnext := h.allowed b.state now (by simp [hstate])
    exact hnext
  | «open» t =>
    dsimp only
    split
    · exact h.allowed _ now (fun _ ↦ CircuitState.noConfusion)
    · exact h.refused now

theorem Sound.recordSuccess :
    Sound bound cooldown (history ++ [(.recordSuccess, .recorded)]) b.recordSuccess := by
  refine ⟨h.threshold_eq, h.cooldown_eq, ?_, fun t ↦ iff_of_false CircuitState.noConfusion ?_⟩
  · rw [List.map_append, List.map_singleton, streak_concat, if_pos rfl]
    rfl
  · rw [tripped_concat]
    rintro (⟨heq, -⟩ | ⟨⟨now', heq⟩, -⟩)
    · cases heq
    · cases heq

theorem Sound.recordFailure (now : ℕ) (hroom : streak (history.map (·.1)) + 1 < 2 ^ 32) :
    Sound bound cooldown (history ++ [(.recordFailure now, (b.recordFailure mode now).2)])
      (b.recordFailure mode now).1 := by
  have hadd : mode.add b.consecutiveFailures 1 =
      some (BitVec.ofNat 32 (streak (history.map (·.1)) + 1)) := by
    rw [Overflow.add, h.count]
    exact word_of_lt hroom
  have hnat : (BitVec.ofNat 32 (streak (history.map (·.1)) + 1)).toNat =
      streak (history.map (·.1)) + 1 := by
    rw [BitVec.toNat_ofNat, Nat.mod_eq_of_lt hroom]
  have hcount : streak ((history ++ [(Call.recordFailure now, Answer.recorded)]).map (·.1)) =
      streak (history.map (·.1)) + 1 := by
    rw [List.map_append, List.map_singleton, streak_concat]
    rfl
  have htripped (t : ℕ) :
      Tripped bound.toNat (history ++ [(.recordFailure now, .recorded)]) t ↔
        now = t ∧ bound.toNat ≤ streak (history.map (·.1)) + 1 := by
    rw [tripped_concat]
    constructor
    · rintro (⟨heq, hle⟩ | ⟨⟨now', heq⟩, -⟩)
      · cases heq
        exact ⟨rfl, hle⟩
      · cases heq
    · rintro ⟨rfl, hle⟩
      exact .inl ⟨rfl, hle⟩
  have hge : BitVec.ofNat 32 (streak (history.map (·.1)) + 1) ≥ b.failureThreshold ↔
      bound.toNat ≤ streak (history.map (·.1)) + 1 := by
    rw [ge_iff_le, BitVec.le_def, h.threshold_eq, hnat]
  simp only [CircuitBreaker.recordFailure, hadd, hge]
  split
  · rename_i hle
    refine ⟨h.threshold_eq, h.cooldown_eq, hnat.trans hcount.symm, fun t ↦ ?_⟩
    rw [htripped, CircuitState.open.injEq]
    exact (and_iff_left hle).symm
  · rename_i hlt
    refine ⟨h.threshold_eq, h.cooldown_eq, hnat.trans hcount.symm, fun t ↦ ?_⟩
    rw [htripped]
    -- an open breaker has counted up to its threshold already
    refine iff_of_false (fun hopen ↦ hlt ?_) (fun hnow ↦ hlt hnow.2)
    exact (streak_tripped ((h.open_iff t).mp hopen)).trans (Nat.le_succ _)

end Steps

theorem sound_run (mode : Overflow) (threshold : BitVec 32) (cooldown : ℕ)
    (hfew : calls.countP Call.isFailure < 2 ^ 32) :
    Sound threshold cooldown (answers (step mode) (.new threshold cooldown) calls)
      (run (step mode) (.new threshold cooldown) calls) := by
  induction calls using List.reverseRecOn with
  | nil => exact sound_new threshold cooldown
  | append_singleton calls call ih =>
    rw [List.countP_append, List.countP_singleton] at hfew
    have h := ih (by omega)
    rw [run_concat, answers_concat]
    cases call with
    | canExecute now => exact h.canExecute now
    | recordSuccess => exact h.recordSuccess
    | recordFailure now =>
      refine h.recordFailure now ?_
      rw [answers_inputs]
      have hle := streak_le calls
      simp only [Call.isFailure, if_true] at hfew
      omega

/-- The breaker refuses a call exactly when the last thing it let happen was the last of enough
failures in a row and it has not cooled down since. -/
theorem refused_iff (mode : Overflow) (threshold : BitVec 32) (cooldown now : ℕ)
    (hfew : calls.countP Call.isFailure < 2 ^ 32) :
    (step mode (run (step mode) (.new threshold cooldown) calls) (.canExecute now)).2 =
        .may false ↔
      ∃ t, Tripped threshold.toNat (answers (step mode) (.new threshold cooldown) calls) t ∧
        now - t < cooldown := by
  rw [← (sound_run mode threshold cooldown hfew).canExecute_iff now, step, Answer.may.injEq]

theorem refused_after_two :
    (step .panics (run (step .panics) (.new 2 5000) [.recordFailure 1000, .recordFailure 1100])
        (.canExecute 2000)).2 = .may false ↔
      ∃ t, Tripped (2 : BitVec 32).toNat (answers (step .panics) (.new 2 5000)
        [.recordFailure 1000, .recordFailure 1100]) t ∧ 2000 - t < 5000 :=
  refused_iff .panics 2 5000 2000 (by decide)

end Breaker

section Pool

structure ServiceEndpoint where
  url : String
  priority : ℕ
  healthy : Bool
deriving DecidableEq

structure FailoverPool where
  endpoints : List ServiceEndpoint
deriving DecidableEq

namespace FailoverPool

def new : FailoverPool := ⟨[]⟩

def addEndpoint (p : FailoverPool) (url : String) (priority : ℕ) : FailoverPool :=
  ⟨sortBy (·.priority) (p.endpoints ++ [⟨url, priority, true⟩])⟩

def markFirst (url : String) (healthy : Bool) : List ServiceEndpoint → List ServiceEndpoint
  | [] => []
  | e :: rest =>
    if e.url = url then { e with healthy := healthy } :: rest
    else e :: markFirst url healthy rest

def markHealthy (p : FailoverPool) (url : String) (healthy : Bool) : FailoverPool :=
  ⟨markFirst url healthy p.endpoints⟩

def getActiveEndpoint (p : FailoverPool) : Option ServiceEndpoint := p.endpoints.find? (·.healthy)

end FailoverPool

inductive Change
  | addEndpoint (url : String) (priority : ℕ)
  | markHealthy (url : String) (healthy : Bool)
deriving DecidableEq

def FailoverPool.change (p : FailoverPool) : Change → FailoverPool
  | .addEndpoint url priority => p.addEndpoint url priority
  | .markHealthy url healthy => p.markHealthy url healthy

def FailoverPool.after (changes : List Change) : FailoverPool :=
  changes.foldl FailoverPool.change .new

def added (changes : List Change) : List (String × ℕ) :=
  changes.filterMap (fun
    | .addEndpoint url priority => some (url, priority)
    | .markHealthy _ _ => none)

/-- What was last said of an address; one that is added is healthy. -/
def healthOf (changes : List Change) (url : String) : Bool :=
  changes.foldl (fun healthy change ↦
    match change with
    | .addEndpoint name _ => if name = url then true else healthy
    | .markHealthy name health => if name = url then health else healthy) true

def entry (changes : List Change) (e : String × ℕ) : ServiceEndpoint :=
  ⟨e.1, e.2, healthOf changes e.1⟩

variable {changes : List Change} {change : Change}

theorem markFirst_eq_map {url : String} {healthy : Bool} {l : List ServiceEndpoint}
    (h : (l.map (·.url)).Nodup) : FailoverPool.markFirst url healthy l =
      l.map (fun e ↦ if e.url = url then { e with healthy := healthy } else e) := by
  induction l with
  | nil => rfl
  | cons e l ih =>
    obtain ⟨hnot, hnodup⟩ := List.nodup_cons.mp h
    rw [FailoverPool.markFirst, List.map_cons, ih hnodup]
    split
    · rename_i heq
      have hrest : l.map (fun e ↦ if e.url = url then { e with healthy := healthy } else e) =
          l.map (fun e ↦ e) := by
        refine List.map_congr_left (fun a ha ↦ if_neg (fun ha' ↦ hnot ?_))
        exact List.mem_map.mpr ⟨a, ha, ha'.trans heq.symm⟩
      rw [hrest, List.map_id']
    · rfl

theorem after_concat : FailoverPool.after (changes ++ [change]) =
    (FailoverPool.after changes).change change := List.foldl_concat _ _ _ _

theorem added_concat : added (changes ++ [change]) = added changes ++ added [change] :=
  List.filterMap_append

theorem healthOf_add {name url : String} {priority : ℕ} :
    healthOf (changes ++ [.addEndpoint name priority]) url =
      if name = url then true else healthOf changes url := by
  rw [healthOf, List.foldl_concat]
  rfl

theorem healthOf_mark {name url : String} {health : Bool} :
    healthOf (changes ++ [.markHealthy name health]) url =
      if name = url then health else healthOf changes url := by
  rw [healthOf, List.foldl_concat]
  rfl

theorem map_entry_sortBy (changes : List Change) (l : List (String × ℕ)) :
    (sortBy (·.2) l).map (entry changes) = sortBy (·.priority) (l.map (entry changes)) :=
  map_sortBy (·.2) ServiceEndpoint.priority (fun _ ↦ rfl) l

/-- The pool holds the addresses that were added, in the order of their priorities, each with what
was last said of it. -/
theorem endpoints_after (h : ((added changes).map (·.1)).Nodup) :
    (FailoverPool.after changes).endpoints =
      (sortBy (·.2) (added changes)).map (entry changes) := by
  induction changes using List.reverseRecOn with
  | nil => rfl
  | append_singleton changes change ih =>
    rw [added_concat, List.map_append] at h
    have hold := ih (List.nodup_append.mp h).1
    rw [after_concat]
    cases change with
    | addEndpoint url priority =>
      have hnew (e : String × ℕ) (he : e ∈ added changes) :
          entry (changes ++ [.addEndpoint url priority]) e = entry changes e := by
        have hne : url ≠ e.1 := by
          rintro rfl
          exact (List.nodup_append.mp h).2.2 _ (List.mem_map_of_mem he) _ List.mem_cons_self rfl
        rw [entry, healthOf_add, if_neg hne, entry]
      have hself : entry (changes ++ [.addEndpoint url priority]) (url, priority) =
          ⟨url, priority, true⟩ := by
        rw [entry, healthOf_add, if_pos rfl]
      have hmap : (added changes).map (entry changes) ++ [⟨url, priority, true⟩] =
          (added (changes ++ [.addEndpoint url priority])).map
            (entry (changes ++ [.addEndpoint url priority])) := by
        rw [added_concat, List.map_append, List.map_congr_left hnew, ← hself]
        rfl
      rw [FailoverPool.change, FailoverPool.addEndpoint, hold,
        map_entry_sortBy, sortBy_append_sortBy, hmap, ← map_entry_sortBy]
    | markHealthy url healthy =>
      have hnodup : ((FailoverPool.after changes).endpoints.map (·.url)).Nodup := by
        rw [hold, List.map_map]
        exact (((sortBy_perm _ _).map _).nodup_iff).mpr (List.nodup_append.mp h).1
      have hadded : added (changes ++ [.markHealthy url healthy]) = added changes := by
        rw [added_concat]
        exact List.append_nil _
      rw [FailoverPool.change, FailoverPool.markHealthy, markFirst_eq_map hnodup, hold, List.map_map,
        hadded]
      refine List.map_congr_left (fun e _ ↦ ?_)
      have hsame : (entry changes e).url = e.1 := rfl
      by_cases hurl : url = e.1
      · rw [Function.comp_apply, if_pos (hsame.trans hurl.symm), entry, entry, healthOf_mark,
          if_pos hurl]
      · rw [Function.comp_apply, if_neg (fun h ↦ hurl (h.symm.trans hsame)), entry, entry,
          healthOf_mark, if_neg hurl]

/-- The active endpoint is the first healthy one in the order of the priorities, and among equal ones
in the order in which they were added. -/
theorem active_endpoint (h : ((added changes).map (·.1)).Nodup) :
    (FailoverPool.after changes).getActiveEndpoint =
      ((sortBy (·.2) (added changes)).find? (fun e ↦ healthOf changes e.1)).map
        (fun e ↦ ⟨e.1, e.2, true⟩) := by
  rw [FailoverPool.getActiveEndpoint, endpoints_after h, List.find?_map]
  have hcomp : ((·.healthy) ∘ entry changes) = (fun e ↦ healthOf changes e.1) := rfl
  rw [hcomp]
  cases hfind : (sortBy (·.2) (added changes)).find? (fun e ↦ healthOf changes e.1) with
  | none => rfl
  | some e =>
    rw [Option.map_some, Option.map_some, entry, List.find?_some hfind]

def failedOver : List Change :=
  [.addEndpoint "secondary" 2, .addEndpoint "primary" 1, .markHealthy "primary" false]

theorem active_after_failover : (FailoverPool.after failedOver).getActiveEndpoint =
    ((sortBy (·.2) (added failedOver)).find? (fun e ↦ healthOf failedOver e.1)).map
      (fun e ↦ ⟨e.1, e.2, true⟩) :=
  active_endpoint (by decide)

end Pool

end Aldivine.Availability.Breakers
