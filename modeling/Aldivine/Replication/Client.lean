import Aldivine.Foundation.Execution
import Aldivine.Replication.Model

namespace Aldivine.Replication.Client

open Foundation.Execution Foundation.Locate Foundation.Machine Foundation.Table Model Std

def recorded (history : List (Call × Reply)) : List Delta :=
  history.filterMap (fun x ↦ match x.1 with
    | .record delta => some delta
    | _ => none)

def latest (history : List (Call × Reply)) : Fields := overlay ∅ (recorded history)

/-- A snapshot replaces what the client has, deltas are written over it. -/
def receive (fields : Fields) (x : Call × Reply) : Fields :=
  match x.2 with
  | .sent (.snapshot _ fields) => fields
  | .sent (.delta deltas) => overlay fields deltas
  | _ => fields

def client (history : List (Call × Reply)) : Fields := history.foldl receive ∅

/-- With nothing left to send, the client has the latest data. -/
def Settled (t : ReplicationTracker) (history : List (Call × Reply)) : Prop :=
  t.pending = [] → client history = latest history

def SendsWhole (mode : Overflow) (t : ReplicationTracker) (history : List (Call × Reply))
    (call : Call) : Prop :=
  ∀ tick fields, (step mode t call).2 = .sent (.snapshot tick fields) → fields = latest history

/-- At every point of the run the client is as it should be, and so is every snapshot. -/
def InSync (mode : Overflow) (tick : Tick) (calls : List Call) : Prop :=
  (∀ before, before <+: calls → Settled (run (step mode) (.new tick) before)
      (answers (step mode) (.new tick) before)) ∧
    Throughout (step mode) (.new tick) (SendsWhole mode) calls

/-- When a snapshot is forced, the baseline already has the data of every component that last left
in a delta packet. -/
def Covered (t : ReplicationTracker) (history : List (Call × Reply)) : Call → Prop
  | .flush _ true =>
    ∀ d ∈ shipped history, t.baseline.fields[d.component]? = some d.data
  | _ => True

/-- The latest data of a component is in the queue, left in a delta packet or is in the baseline;
unless it is in the queue, the client has it. -/
structure Tracked (entity : BitVec 64) (t : ReplicationTracker) (history : List (Call × Reply)) :
    Prop where
  one : ∀ d ∈ t.pending, d.entity = entity
  distinct : (t.pending.map (·.component)).Nodup
  current : ∀ d ∈ t.pending, (latest history)[d.component]? = some d.data
  oneSent : ∀ d ∈ shipped history, d.entity = entity
  sent : ∀ d ∈ shipped history, (latest history)[d.component]? = some d.data ∧
    ∀ p ∈ t.pending, p.component ≠ d.component
  known : ∀ component : String,
    (latest history)[component]? = none → t.baseline.fields[component]? = none
  held : ∀ component data, (latest history)[component]? = some data →
    (∀ p ∈ t.pending, p.component ≠ component) → (∀ d ∈ shipped history, d.component ≠ component) →
    t.baseline.fields[component]? = some data
  kept : ∀ component, (∀ p ∈ t.pending, p.component ≠ component) →
    (client history)[component]? = (latest history)[component]?

variable {mode : Overflow} {entity : BitVec 64} {t t' : ReplicationTracker}
  {history : List (Call × Reply)} {fields : Fields} {deltas : List Delta} {component : String}

section Overlay

theorem overlay_of_not_mem (h : ∀ d ∈ deltas, d.component ≠ component) :
    (overlay fields deltas)[component]? = fields[component]? := by
  have hnone : deltas.reverse.find? (fun d ↦ decide (d.component = component)) = none := by
    rw [List.find?_eq_none]
    intro d hd
    simpa using h d (List.mem_reverse.mp hd)
  rw [overlay, getElem?_foldl_insert, hnone]
  rfl

theorem overlay_of_mem {d : Delta} (hd : d ∈ deltas) (hc : d.component = component)
    {data : Option (List UInt8)}
    (hdata : ∀ d ∈ deltas, d.component = component → some d.data = data) :
    (overlay fields deltas)[component]? = data := by
  rw [overlay, getElem?_foldl_insert]
  cases hfind : deltas.reverse.find? (fun d ↦ decide (d.component = component)) with
  | none =>
    have hno := List.find?_eq_none.mp hfind d (List.mem_reverse.mpr hd)
    simp [hc] at hno
  | some last =>
    have hlast := List.find?_some hfind
    have hmem := List.mem_reverse.mp (List.mem_of_find?_eq_some hfind)
    exact hdata last hmem (by simpa using hlast)

/-- Fields that are right where nothing is pending become right everywhere. -/
theorem overlay_pending (htracked : Tracked entity t history)
    (h : ∀ component, (∀ d ∈ t.pending, d.component ≠ component) →
      fields[component]? = (latest history)[component]?) :
    overlay fields t.pending = latest history := by
  refine ExtTreeMap.ext_getElem? (fun component ↦ ?_)
  by_cases hmem : ∃ d ∈ t.pending, d.component = component
  · obtain ⟨d, hd, hc⟩ := hmem
    refine overlay_of_mem hd hc (fun d hd hc ↦ ?_)
    rw [← hc, htracked.current d hd]
  · have hnot : ∀ d ∈ t.pending, d.component ≠ component := fun d hd hc ↦ hmem ⟨d, hd, hc⟩
    rw [overlay_of_not_mem hnot]
    exact h component hnot

end Overlay

section Histories

variable {call : Call} {reply : Reply}

theorem client_concat {x : Call × Reply} :
    client (history ++ [x]) = receive (client history) x := by
  rw [client, List.foldl_append]
  rfl

theorem latest_record {delta : Delta} :
    latest (history ++ [(.record delta, reply)]) =
      (latest history).insert delta.component delta.data := by
  simp [latest, recorded, overlay, List.filterMap_append]

theorem latest_other (history : List (Call × Reply)) (reply : Reply)
    (hcall : ∀ delta, call ≠ .record delta) :
    latest (history ++ [(call, reply)]) = latest history := by
  cases call with
  | record delta => exact absurd rfl (hcall delta)
  | acknowledge tick => simp [latest, recorded, List.filterMap_append]
  | setTier tier => simp [latest, recorded, List.filterMap_append]
  | flush now force => simp [latest, recorded, List.filterMap_append]

end Histories

section Steps

variable {delta : Delta}

theorem record_pending (hone : ∀ d ∈ t.pending, d.entity = delta.entity)
    (hdistinct : (t.pending.map (·.component)).Nodup) :
    ((t.record delta).pending.map (·.component)).Nodup ∧
      ∀ d, d ∈ (t.record delta).pending ↔
        d = delta ∨ d ∈ t.pending ∧ d.component ≠ delta.component := by
  unfold ReplicationTracker.record
  cases hfind : locate (fun d ↦ d.entity == delta.entity && d.component == delta.component)
      t.pending with
  | none =>
    have hnew : ∀ d ∈ t.pending, d.component ≠ delta.component := by
      intro d hd hc
      have hno := locate_eq_none.mp hfind d hd
      simp [hone d hd, hc] at hno
    refine ⟨?_, fun d ↦ ?_⟩
    · rw [List.map_append, List.map_singleton, List.nodup_append_comm]
      refine List.nodup_cons.mpr ⟨fun hmem ↦ ?_, hdistinct⟩
      obtain ⟨d, hd, hc⟩ := List.mem_map.mp hmem
      exact hnew d hd hc
    · rw [List.mem_append, List.mem_singleton, or_comm]
      exact or_congr_right ⟨fun hd ↦ ⟨hd, hnew d hd⟩, fun hd ↦ hd.1⟩
  | some existing =>
    obtain ⟨hsplit, hmatch, -⟩ := locate_split hfind
    have hsame : existing.found.component = delta.component := by
      simp only [Bool.and_eq_true, beq_iff_eq] at hmatch
      exact hmatch.2
    rw [hsplit, List.map_append, List.map_cons, hsame] at hdistinct
    obtain ⟨hfresh, -⟩ := List.nodup_cons.mp (List.nodup_middle.mp hdistinct)
    have hothers : ∀ d ∈ existing.before ++ existing.after, d.component ≠ delta.component := by
      intro d hd hc
      apply hfresh
      rw [← List.map_append]
      exact List.mem_map.mpr ⟨d, hd, hc⟩
    refine ⟨?_, fun d ↦ ?_⟩
    · simpa only [Located.put, List.map_append, List.map_cons] using hdistinct
    · have hput : d ∈ existing.put delta ↔ d = delta ∨ d ∈ existing.before ++ existing.after := by
        simp only [Located.put, List.mem_append, List.mem_cons]
        tauto
      have hold : d ∈ t.pending ↔ d = existing.found ∨ d ∈ existing.before ++ existing.after := by
        rw [hsplit]
        simp only [List.mem_append, List.mem_cons]
        tauto
      rw [hput, hold]
      refine or_congr_right ⟨fun hd ↦ ⟨.inr hd, hothers d hd⟩, fun hd ↦ ?_⟩
      refine hd.1.resolve_left (fun heq ↦ hd.2 ?_)
      rw [heq, hsame]

theorem record_baseline : (t.record delta).baseline = t.baseline := by
  unfold ReplicationTracker.record
  split <;> rfl

theorem tracked_record (htracked : Tracked entity t history) (hentity : delta.entity = entity) :
    Tracked entity (t.record delta) (history ++ [(.record delta, .done)]) := by
  subst hentity
  obtain ⟨hdistinct, hmem⟩ := record_pending htracked.one htracked.distinct
  have hlatest (component : String) :
      (latest (history ++ [(.record delta, .done)]))[component]? =
        if delta.component = component then some delta.data else (latest history)[component]? := by
    rw [latest_record, ExtTreeMap.getElem?_insert]
    simp only [Std.compare_eq_iff_eq]
  have hshipped (d : Delta) : d ∈ shipped (history ++ [(.record delta, .done)]) ↔
      d ∈ shipped history ∧ d.component ≠ delta.component := by
    rw [shipped_concat, ship, List.mem_filter]
    refine and_congr_right (fun hd ↦ ?_)
    simp [htracked.oneSent d hd]
  -- a component that is not pending afterwards is another one, and was not pending before
  have hother (component : String)
      (hnot : ∀ p ∈ (t.record delta).pending, p.component ≠ component) :
      delta.component ≠ component ∧ ∀ p ∈ t.pending, p.component ≠ component := by
    have hne := hnot delta ((hmem delta).mpr (.inl rfl))
    refine ⟨hne, fun p hp hc ↦ ?_⟩
    exact hnot p ((hmem p).mpr (.inr ⟨hp, fun heq ↦ hne (heq.symm.trans hc)⟩)) hc
  refine ⟨fun d hd ↦ ?_, hdistinct, fun d hd ↦ ?_, fun d hd ↦ ?_, fun d hd ↦ ⟨?_, fun p hp ↦ ?_⟩,
    fun component hnone ↦ ?_, fun component data hdata hnot hunsent ↦ ?_, fun component hnot ↦ ?_⟩
  · rcases (hmem d).mp hd with rfl | hd
    · rfl
    · exact htracked.one d hd.1
  · rw [hlatest]
    rcases (hmem d).mp hd with rfl | hd
    · rw [if_pos rfl]
    · rw [if_neg hd.2.symm]
      exact htracked.current d hd.1
  · exact htracked.oneSent d ((hshipped d).mp hd).1
  · obtain ⟨hd, hne⟩ := (hshipped d).mp hd
    rw [hlatest, if_neg hne.symm]
    exact (htracked.sent d hd).1
  · obtain ⟨hd, hne⟩ := (hshipped d).mp hd
    rcases (hmem p).mp hp with rfl | hp
    · exact hne.symm
    · exact (htracked.sent d hd).2 p hp.1
  · rw [hlatest] at hnone
    rw [record_baseline]
    split at hnone
    · cases hnone
    · exact htracked.known component hnone
  · obtain ⟨hne, hnot⟩ := hother component hnot
    rw [hlatest, if_neg hne] at hdata
    rw [record_baseline]
    refine htracked.held component data hdata hnot (fun d hd hc ↦ ?_)
    exact hunsent d ((hshipped d).mpr ⟨hd, fun heq ↦ hne (heq.symm.trans hc)⟩) hc
  · obtain ⟨hne, hnot⟩ := hother component hnot
    rw [hlatest, if_neg hne, client_concat]
    exact htracked.kept component hnot

theorem tracked_kept {call : Call} (htracked : Tracked entity t history)
    (hcall : ∀ delta, call ≠ .record delta) (hpending : t'.pending = t.pending)
    (hfields : t'.baseline.fields = t.baseline.fields) :
    Tracked entity t' (history ++ [(call, .done)]) := by
  obtain ⟨hone, hdistinct, hcurrent, honeSent, hsent, hknown, hheld, hkept⟩ := htracked
  have hlatest := latest_other history .done hcall
  have hshipped : shipped (history ++ [(call, .done)]) = shipped history := by
    rw [shipped_concat]
    cases call with
    | record delta => exact absurd rfl (hcall delta)
    | _ => rfl
  constructor
  · rwa [hpending]
  · rwa [hpending]
  · rwa [hpending, hlatest]
  · rwa [hshipped]
  · rwa [hshipped, hpending, hlatest]
  · rwa [hfields, hlatest]
  · rwa [hshipped, hpending, hfields, hlatest]
  · rw [hpending, hlatest, client_concat]
    exact hkept

/-- A forced snapshot is the latest data exactly when the baseline covers it. -/
theorem overlay_baseline_iff (htracked : Tracked entity t history) (now : ℕ) :
    overlay t.baseline.fields t.pending = latest history ↔ Covered t history (.flush now true) := by
  constructor
  · intro heq d hd
    obtain ⟨hdata, hnot⟩ := htracked.sent d hd
    rw [← heq, overlay_of_not_mem hnot] at hdata
    exact hdata
  · intro hcovered
    refine overlay_pending htracked (fun component hnot ↦ ?_)
    cases hdata : (latest history)[component]? with
    | none => exact htracked.known component hdata
    | some data =>
      by_cases hsent : ∃ d ∈ shipped history, d.component = component
      · obtain ⟨d, hd, rfl⟩ := hsent
        rw [hcovered d hd, ← (htracked.sent d hd).1, hdata]
      · exact htracked.held component data hdata hnot (fun d hd hc ↦ hsent ⟨d, hd, hc⟩)

theorem tracked_snapshot {now : ℕ} {tick : Tick} (hpending : t'.pending = [])
    (hfields : t'.baseline.fields = overlay t.baseline.fields t.pending)
    (htracked : Tracked entity t history) (hcovered : Covered t history (.flush now true)) :
    Tracked entity t' (history ++ [(.flush now true,
      .sent (.snapshot tick (overlay t.baseline.fields t.pending)))]) := by
  have hwhole := (overlay_baseline_iff htracked now).mpr hcovered
  rw [hwhole] at hfields ⊢
  have hflush : ∀ delta, Call.flush now true ≠ .record delta := fun _ ↦ Call.noConfusion
  have hlatest := latest_other history (.sent (.snapshot tick (latest history))) hflush
  constructor
  · simp [hpending]
  · simp [hpending]
  · simp [hpending]
  · rw [shipped_concat]
    exact htracked.oneSent
  · rw [shipped_concat, hlatest, hpending]
    exact fun d hd ↦ ⟨(htracked.sent d hd).1, List.forall_mem_nil _⟩
  · rw [hlatest, hfields]
    exact fun component hnone ↦ hnone
  · rw [hlatest, hfields]
    exact fun component data hdata _ _ ↦ hdata
  · rw [hlatest, client_concat]
    exact fun component _ ↦ rfl

theorem tracked_delta {now : ℕ} (hpending : t'.pending = [])
    (hfields : t'.baseline.fields = t.baseline.fields) (htracked : Tracked entity t history) :
    Tracked entity t' (history ++ [(.flush now false, .sent (.delta t.pending))]) := by
  have hflush : ∀ delta, Call.flush now false ≠ .record delta := fun _ ↦ Call.noConfusion
  have hlatest := latest_other history (.sent (.delta t.pending)) hflush
  have hshipped : shipped (history ++ [(.flush now false, .sent (.delta t.pending))]) =
      shipped history ++ t.pending := by
    rw [shipped_concat]
    rfl
  constructor
  · simp [hpending]
  · simp [hpending]
  · simp [hpending]
  · rw [hshipped, List.forall_mem_append]
    exact ⟨htracked.oneSent, htracked.one⟩
  · rw [hshipped, hlatest, hpending, List.forall_mem_append]
    exact ⟨fun d hd ↦ ⟨(htracked.sent d hd).1, List.forall_mem_nil _⟩,
      fun d hd ↦ ⟨htracked.current d hd, List.forall_mem_nil _⟩⟩
  · rw [hlatest, hfields]
    exact htracked.known
  · rw [hshipped, hlatest, hfields]
    intro component data hdata _ hunsent
    obtain ⟨hunsent, hnot⟩ := List.forall_mem_append.mp hunsent
    exact htracked.held component data hdata hnot hunsent
  · rw [hlatest, client_concat]
    intro component _
    exact congrArg (·[component]?) (overlay_pending htracked htracked.kept)

theorem step_tracked {call : Call} (hroom : Room mode t call)
    (hentity : ∀ delta, call = .record delta → delta.entity = entity)
    (htracked : Tracked entity t history) (hcovered : Covered t history call) :
    Tracked entity (step mode t call).1 (history ++ [(call, (step mode t call).2)]) := by
  have hstepped := stepped hroom
  generalize step mode t call = r at hstepped
  obtain ⟨t', reply⟩ := r
  cases hstepped with
  | record => exact tracked_record htracked (hentity _ rfl)
  | acknowledge => exact tracked_kept htracked (fun _ ↦ Call.noConfusion) rfl rfl
  | setTier => exact tracked_kept htracked (fun _ ↦ Call.noConfusion) rfl rfl
  | snapshot hpending hfields => exact tracked_snapshot hpending hfields htracked hcovered
  | delta hpending hfields => exact tracked_delta hpending hfields htracked

theorem Tracked.settled (htracked : Tracked entity t history) : Settled t history := by
  intro hpending
  refine ExtTreeMap.ext_getElem? (fun component ↦ htracked.kept component ?_)
  rw [hpending]
  exact List.forall_mem_nil _

theorem sendsWhole_iff {call : Call} (hroom : Room mode t call)
    (htracked : Tracked entity t history) :
    SendsWhole mode t history call ↔ Covered t history call := by
  have hstepped := stepped hroom
  unfold SendsWhole
  generalize step mode t call = r at hstepped
  obtain ⟨t', reply⟩ := r
  cases hstepped with
  | record => exact iff_of_true (fun _ _ h ↦ by cases h) trivial
  | acknowledge => exact iff_of_true (fun _ _ h ↦ by cases h) trivial
  | setTier => exact iff_of_true (fun _ _ h ↦ by cases h) trivial
  | @snapshot now _ tick hpending hfields =>
    rw [← overlay_baseline_iff htracked now]
    constructor
    · intro hwhole
      exact hwhole tick _ rfl
    · rintro heq _ _ h
      cases h
      exact heq
  | delta hpending hfields => exact iff_of_true (fun _ _ h ↦ by cases h) trivial

/-- The client follows the tracker as long as no forced snapshot finds the baseline behind. -/
theorem client_follows_iff (tick : Tick) (calls : List Call)
    (hentity : ∀ delta, .record delta ∈ calls → delta.entity = entity)
    (hroom : ∀ x ∈ trace (step mode) (.new tick) calls, Room mode x.1 x.2) :
    InSync mode tick calls ↔ Throughout (step mode) (.new tick) Covered calls := by
  have hadmissible : Throughout (step mode) (.new tick) (fun t _ call ↦ Room mode t call ∧
      ∀ delta, call = .record delta → delta.entity = entity) calls := by
    intro before call hpre
    refine ⟨throughout_trace.mpr hroom before call hpre, ?_⟩
    rintro delta rfl
    exact hentity delta (hpre.subset (List.mem_append_right _ List.mem_cons_self))
  have hnew : Tracked entity (.new tick) [] := by
    constructor <;> simp [ReplicationTracker.new, latest, client, recorded, overlay,
      shipped]
  refine throughout_run_iff (B := Tracked entity) ?_ ?_ hnew hnew.settled calls hadmissible
  · intro t history call hadm htracked hcovered
    exact step_tracked hadm.1 hadm.2 htracked hcovered
  · intro t history call hadm htracked _
    rw [sendsWhole_iff hadm.1 htracked]
    refine ⟨fun h ↦ h.2, fun hcovered ↦ ⟨?_, hcovered⟩⟩
    exact (step_tracked hadm.1 hadm.2 htracked hcovered).settled

end Steps

theorem recorded_again_inSync :
    InSync .wraps 0 [.record ⟨7, "pos", [1]⟩, .flush 0 false, .record ⟨7, "pos", [2]⟩,
      .flush 1 true] := by
  have hentity : ∀ delta, Call.record delta ∈ [Call.record ⟨7, "pos", [1]⟩, .flush 0 false,
      .record ⟨7, "pos", [2]⟩, .flush 1 true] → delta.entity = 7 := by simp
  refine (client_follows_iff 0 _ hentity ?_).mpr ?_
  · intro x hx
    simp only [trace, List.mem_cons, List.not_mem_nil, or_false] at hx
    rcases hx with rfl | rfl | rfl | rfl
    · trivial
    · exact .inl rfl
    · trivial
    · exact .inl rfl
  · have hfirst : Throughout (step .wraps) (.new 0) Covered
        ([] ++ [.record ⟨7, "pos", [1]⟩] ++ [.flush 0 false] ++ [.record ⟨7, "pos", [2]⟩]) := by
      simp only [throughout_concat]
      exact ⟨⟨⟨throughout_nil, trivial⟩, trivial⟩, trivial⟩
    refine (throughout_concat (i := .flush 1 true)).mpr ⟨hfirst, ?_⟩
    exact fun d hd ↦ absurd hd List.not_mem_nil

/-- A snapshot forced right after a delta flush has lost what the delta packet said. -/
theorem forced_after_delta_not_inSync :
    ¬InSync .wraps 0 [.record ⟨7, "pos", [1]⟩, .flush 0 false, .flush 1 true] := by
  rintro ⟨-, hwhole⟩
  have hlost := hwhole [.record ⟨7, "pos", [1]⟩, .flush 0 false] (.flush 1 true)
    List.prefix_rfl 0 ∅ rfl
  have hpos := congrArg (fun fields : Fields ↦ fields["pos"]?) hlost
  have hlatest : (latest (answers (step .wraps) (.new 0)
      [.record ⟨7, "pos", [1]⟩, .flush 0 false]))["pos"]? = some [1] :=
    ExtTreeMap.getElem?_insert_self
  rw [hlatest, ExtTreeMap.getElem?_empty] at hpos
  cases hpos

end Aldivine.Replication.Client
