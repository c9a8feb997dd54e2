import Aldivine.Foundation.Execution
import Aldivine.Foundation.Table

namespace Aldivine.Aegis.Alerting

open Foundation.Execution Foundation.Table

inductive Severity
  | info
  | warning
  | critical
deriving DecidableEq

inductive AlertKind
  | serverOffline
  | highCpu
  | highMemory
  | tickDegradation
  | resourceCrashLoop
  | databaseFailure
  | networkPacketLoss
  | highLatency
  | diskLow
deriving DecidableEq

def AlertKind.defaultSeverity : AlertKind → Severity
  | serverOffline | databaseFailure | resourceCrashLoop => .critical
  | highCpu | highMemory | tickDegradation | networkPacketLoss | diskLow => .warning
  | highLatency => .info

structure Alert where
  kind : AlertKind
  severity : Severity
  firstFired : ℕ
  lastFired : ℕ
  occurrences : ℕ
  message : String
  subject : String
  resolvedAt : Option ℕ
deriving DecidableEq

/-- The subject and the kind, which alerts are told apart by. -/
abbrev Key := String × AlertKind

structure Alerts where
  pending : AList (fun _ : Key ↦ Alert)
  resolved : List Alert

namespace Alerts

def new : Alerts := ⟨∅, []⟩

def fire (a : Alerts) (subject : String) (kind : AlertKind) (message : String) (now : ℕ) :
    Alerts × Bool :=
  let alert := (a.pending.lookup (subject, kind)).getD
    ⟨kind, kind.defaultSeverity, now, now, 0, message, subject, none⟩
  let alert :=
    { alert with lastFired := now, occurrences := alert.occurrences + 1, message := message }
  ({ a with pending := a.pending.insert (subject, kind) alert },
    (a.pending.lookup (subject, kind)).isNone)

def resolve (a : Alerts) (subject : String) (kind : AlertKind) (now : ℕ) : Alerts × Bool :=
  match a.pending.lookup (subject, kind) with
  | some alert =>
    (⟨a.pending.erase (subject, kind), a.resolved ++ [{ alert with resolvedAt := some now }]⟩, true)
  | none => (a, false)

/-- The loop of `reconcile`. -/
def clearAll (a : Alerts) (now : ℕ) (stillTrue : Key → Option Bool) (keys : List Key) : Alerts :=
  keys.foldl (fun a key ↦
    if stillTrue key = some false then (a.resolve key.1 key.2 now).1 else a) a

def reconcile (a : Alerts) (now : ℕ) (stillTrue : Key → Option Bool) : Alerts :=
  a.clearAll now stillTrue a.pending.keys

end Alerts

inductive Call
  | fire (subject : String) (kind : AlertKind) (message : String) (now : ℕ)
  | resolve (subject : String) (kind : AlertKind) (now : ℕ)
  | reconcile (now : ℕ) (stillTrue : Key → Option Bool)

inductive Answer
  | fired (isNew : Bool)
  | resolved (found : Bool)
  | reconciled
deriving DecidableEq

def step (a : Alerts) : Call → Alerts × Answer
  | .fire subject kind message now =>
    ((a.fire subject kind message now).1, .fired (a.fire subject kind message now).2)
  | .resolve subject kind now => ((a.resolve subject kind now).1, .resolved (a.resolve subject kind now).2)
  | .reconcile now stillTrue => (a.reconcile now stillTrue, .reconciled)

def Call.reports (key : Key) : Call → Option (ℕ × String)
  | .fire subject kind message now => if (subject, kind) = key then some (now, message) else none
  | _ => none

def Call.clears (key : Key) : Call → Bool
  | .fire .. => false
  | .resolve subject kind _ => decide ((subject, kind) = key)
  | .reconcile _ stillTrue => decide (stillTrue key = some false)

/-- What was reported of a condition since it was last cleared. -/
def episode (key : Key) (calls : List Call) : List (ℕ × String) :=
  ((calls.reverse.takeWhile (fun c ↦ !c.clears key)).reverse).filterMap (·.reports key)

def summary (key : Key) (reports : List (ℕ × String)) : Option Alert :=
  match reports.head?, reports.getLast? with
  | some first, some last =>
    some ⟨key.2, key.2.defaultSeverity, first.1, last.1, reports.length, last.2, key.1, none⟩
  | _, _ => none

def Answer.isNew : Answer → Bool
  | .fired isNew => isNew
  | _ => false

def Call.isFire : Call → Bool
  | .fire .. => true
  | _ => false

variable {a : Alerts} {key : Key} {calls : List Call} {call : Call} {subject message : String}
  {kind : AlertKind} {now : ℕ}

theorem episode_concat (key : Key) (calls : List Call) (call : Call) :
    episode key (calls ++ [call]) =
      if call.clears key then [] else episode key calls ++ (call.reports key).toList := by
  rw [episode, episode, List.reverse_concat, List.takeWhile_cons]
  cases call.clears key with
  | true => rfl
  | false =>
    simp only [Bool.not_false, if_true, List.reverse_cons, List.filterMap_append,
      Bool.false_eq_true, if_false]
    cases hreports : call.reports key with
    | none => simp [hreports]
    | some report => simp [hreports]

@[simp] theorem summary_nil : summary key [] = none := rfl

theorem summary_concat (reports : List (ℕ × String)) (now : ℕ) (message : String) :
    summary key (reports ++ [(now, message)]) =
      let alert := (summary key reports).getD
        ⟨key.2, key.2.defaultSeverity, now, now, 0, message, key.1, none⟩
      some { alert with
        lastFired := now, occurrences := alert.occurrences + 1, message := message } := by
  cases reports with
  | nil => rfl
  | cons first reports => simp [summary, List.getLast?_cons]

theorem lookup_resolve : (a.resolve subject kind now).1.pending.lookup key =
    if (subject, kind) = key then none else a.pending.lookup key := by
  unfold Alerts.resolve
  split
  · split
    · rename_i h
      rw [← h]
      exact AList.lookup_erase _ _
    · rename_i h
      exact AList.lookup_erase_ne (Ne.symm h)
  · rename_i hnone
    split
    · rename_i h
      exact h ▸ hnone
    · rfl

theorem lookup_clearAll (stillTrue : Key → Option Bool) (keys : List Key) :
    (a.clearAll now stillTrue keys).pending.lookup key =
      if key ∈ keys ∧ stillTrue key = some false then none else a.pending.lookup key := by
  induction keys generalizing a with
  | nil => simp [Alerts.clearAll]
  | cons first keys ih =>
    rw [Alerts.clearAll, List.foldl_cons, ← Alerts.clearAll, ih]
    by_cases hkey : key = first
    · subst hkey
      by_cases hfalse : stillTrue key = some false
      · simp [hfalse, lookup_resolve]
      · simp [hfalse]
    · have hother : (if stillTrue first = some false then (a.resolve first.1 first.2 now).1
          else a).pending.lookup key = a.pending.lookup key := by
        split
        · rw [lookup_resolve, if_neg (Ne.symm hkey)]
        · rfl
      simp only [hother, List.mem_cons, hkey, false_or]

theorem lookup_reconcile (stillTrue : Key → Option Bool) :
    (a.reconcile now stillTrue).pending.lookup key =
      if stillTrue key = some false then none else a.pending.lookup key := by
  rw [Alerts.reconcile, lookup_clearAll]
  by_cases hopen : key ∈ a.pending.keys
  · simp only [hopen, true_and]
  · have hnone : a.pending.lookup key = none := AList.lookup_eq_none.mpr hopen
    simp only [hnone, ite_self]

/-- The pending alert of a condition sums up its reports since it was last cleared. -/
theorem lookup_run (key : Key) (calls : List Call) :
    (run step .new calls).pending.lookup key = summary key (episode key calls) := by
  induction calls using List.reverseRecOn with
  | nil => rfl
  | append_singleton calls call ih =>
    rw [run_concat, episode_concat]
    cases call with
    | fire subject kind message now =>
      simp only [step, Alerts.fire, lookup_insert_ite, Call.clears, Call.reports,
        Bool.false_eq_true, if_false]
      by_cases hkey : (subject, kind) = key
      · subst hkey
        rw [if_pos rfl, if_pos rfl, Option.toList_some, summary_concat, ← ih]
      · rw [if_neg (Ne.symm hkey), if_neg hkey, Option.toList_none, List.append_nil, ih]
    | resolve subject kind now =>
      simp only [step, lookup_resolve, Call.clears, Call.reports, Option.toList_none,
        List.append_nil, decide_eq_true_eq, ih]
      split
      · rfl
      · rfl
    | reconcile now stillTrue =>
      simp only [step, lookup_reconcile, Call.clears, Call.reports, Option.toList_none,
        List.append_nil, decide_eq_true_eq, ih]
      split
      · rfl
      · rfl

section Weights

variable (f : Alert → ℕ)

/-- The total of `f` over all alerts, the resolved ones included. -/
def Alerts.weigh (a : Alerts) : ℕ := (a.resolved.map f).sum + total f a.pending

variable {f} (hf : ∀ alert at?, f { alert with resolvedAt := at? } = f alert)

include hf

theorem weigh_resolve : (a.resolve subject kind now).1.weigh f = a.weigh f := by
  unfold Alerts.resolve
  split
  · rename_i alert hlookup
    have htotal := total_erase f hlookup
    rw [Alerts.weigh, Alerts.weigh, List.map_append, List.sum_append, List.map_singleton,
      List.sum_singleton, hf]
    dsimp only
    omega
  · rfl

theorem weigh_clearAll (stillTrue : Key → Option Bool) (keys : List Key) :
    (a.clearAll now stillTrue keys).weigh f = a.weigh f := by
  induction keys generalizing a with
  | nil => rfl
  | cons key keys ih =>
    rw [Alerts.clearAll, List.foldl_cons, ← Alerts.clearAll, ih]
    split
    · exact weigh_resolve hf
    · rfl

end Weights

theorem count_fire : (a.fire subject kind message now).1.weigh (fun _ ↦ 1) =
    a.weigh (fun _ ↦ 1) + if (a.fire subject kind message now).2 then 1 else 0 := by
  cases hlookup : a.pending.lookup (subject, kind) with
  | none =>
    simp only [Alerts.fire, Alerts.weigh, hlookup, total_insert_new _ _ hlookup, Option.isNone_none,
      if_true]
    omega
  | some alert =>
    have hsame (alert' : Alert) := total_insert_old (fun _ ↦ 1) alert' hlookup
    simp only [Alerts.fire, Alerts.weigh, hlookup, Option.isNone_some, Bool.false_eq_true, if_false,
      Nat.add_right_cancel (hsame _)]
    rfl

theorem occurrences_fire : (a.fire subject kind message now).1.weigh (·.occurrences) =
    a.weigh (·.occurrences) + 1 := by
  cases hlookup : a.pending.lookup (subject, kind) with
  | none =>
    simp only [Alerts.fire, Alerts.weigh, hlookup, total_insert_new _ _ hlookup, Option.getD_none]
    omega
  | some alert =>
    have hmore := total_insert_old (·.occurrences)
      { alert with lastFired := now, occurrences := alert.occurrences + 1, message := message } hlookup
    simp only [Alerts.fire, Alerts.weigh, hlookup, Option.getD_some]
    dsimp only at hmore
    omega

/-- Every fire is an occurrence of one alert, and those that were said to be new opened one. -/
theorem weigh_run (calls : List Call) :
    (run step .new calls).weigh (fun _ ↦ 1) =
        (answers step .new calls).countP (fun x ↦ x.2.isNew) ∧
      (run step .new calls).weigh (·.occurrences) = calls.countP Call.isFire := by
  induction calls using List.reverseRecOn with
  | nil => exact ⟨rfl, rfl⟩
  | append_singleton calls call ih =>
    rw [run_concat, answers_concat, List.countP_append, List.countP_append, List.countP_singleton,
      List.countP_singleton, ← ih.1, ← ih.2]
    cases call with
    | fire subject kind message now => exact ⟨count_fire, occurrences_fire⟩
    | resolve subject kind now =>
      exact ⟨weigh_resolve (fun _ _ ↦ rfl), weigh_resolve (fun _ _ ↦ rfl)⟩
    | reconcile now stillTrue =>
      exact ⟨weigh_clearAll (fun _ _ ↦ rfl) stillTrue _, weigh_clearAll (fun _ _ ↦ rfl) stillTrue _⟩

theorem resolved_resolve {r : Alert} (h : r ∈ (a.resolve subject kind now).1.resolved) :
    r ∈ a.resolved ∨ ∃ alert, a.pending.lookup (subject, kind) = some alert ∧
      r = { alert with resolvedAt := some now } := by
  unfold Alerts.resolve at h
  split at h
  · rename_i alert hlookup
    rw [List.mem_append, List.mem_singleton] at h
    exact h.imp_right (fun heq ↦ ⟨alert, hlookup, heq⟩)
  · exact .inl h

theorem resolved_clearAll {stillTrue : Key → Option Bool} {keys : List Key} {r : Alert}
    (h : r ∈ (a.clearAll now stillTrue keys).resolved) :
    r ∈ a.resolved ∨ ∃ key alert, stillTrue key = some false ∧
      a.pending.lookup key = some alert ∧ r = { alert with resolvedAt := some now } := by
  induction keys generalizing a with
  | nil => exact .inl h
  | cons first keys ih =>
    rw [Alerts.clearAll, List.foldl_cons, ← Alerts.clearAll] at h
    split at h
    · rename_i hfalse
      rcases ih h with h | ⟨key, alert, hkey, hlookup, rfl⟩
      · rcases resolved_resolve h with h | ⟨alert, hlookup, rfl⟩
        · exact .inl h
        · exact .inr ⟨first, alert, hfalse, hlookup, rfl⟩
      · rw [lookup_resolve] at hlookup
        split at hlookup
        · cases hlookup
        · exact .inr ⟨key, alert, hkey, hlookup, rfl⟩
    · exact ih h

theorem summary_pending {reports : List (ℕ × String)} {alert : Alert}
    (h : summary key reports = some alert) : alert.resolvedAt = none := by
  unfold summary at h
  split at h
  · cases h
    rfl
  · cases h

/-- What was reported of a condition until a call cleared it, under an alert that it resolved. -/
def Closed (calls : List Call) (r : Alert) : Prop :=
  ∃ key before call after, calls = before ++ call :: after ∧ call.clears key = true ∧
    summary key (episode key before) = some { r with resolvedAt := none }

theorem closed_of_cleared {alert : Alert} (hclears : call.clears key = true)
    (hlookup : (run step .new calls).pending.lookup key = some alert) :
    Closed (calls ++ [call]) { alert with resolvedAt := some now } := by
  refine ⟨key, calls, call, [], rfl, hclears, ?_⟩
  rw [lookup_run] at hlookup
  have hnone := summary_pending hlookup
  rw [hlookup, ← hnone]

theorem closed_run {r : Alert} (h : r ∈ (run step .new calls).resolved) : Closed calls r := by
  induction calls using List.reverseRecOn generalizing r with
  | nil => cases h
  | append_singleton calls call ih =>
    have hold {r : Alert} (hr : r ∈ (run step .new calls).resolved) : Closed (calls ++ [call]) r := by
      obtain ⟨key, before, c, after, rfl, hc, hsum⟩ := ih hr
      exact ⟨key, before, c, after ++ [call], by simp, hc, hsum⟩
    rw [run_concat] at h
    cases call with
    | fire subject kind message now => exact hold h
    | resolve subject kind now =>
      rcases resolved_resolve h with h | ⟨alert, hlookup, rfl⟩
      · exact hold h
      · exact closed_of_cleared (decide_eq_true rfl) hlookup
    | reconcile now stillTrue =>
      rcases resolved_clearAll h with h | ⟨key, alert, hfalse, hlookup, rfl⟩
      · exact hold h
      · exact closed_of_cleared (decide_eq_true hfalse) hlookup

/-- A condition has one alert while it lasts, which sums up its reports, and a resolved one sums up
those until it was cleared; every alert was announced as new once, and every report is counted in
one. -/
theorem alerts_account (calls : List Call) :
    (∀ key, (run step .new calls).pending.lookup key = summary key (episode key calls)) ∧
      (∀ r ∈ (run step .new calls).resolved, Closed calls r) ∧
      (run step .new calls).weigh (fun _ ↦ 1) =
        (answers step .new calls).countP (fun x ↦ x.2.isNew) ∧
      (run step .new calls).weigh (·.occurrences) = calls.countP Call.isFire :=
  ⟨fun key ↦ lookup_run key calls, fun _ hr ↦ closed_run hr, weigh_run calls⟩

end Aldivine.Aegis.Alerting
