import Aldivine.Foundation.Execution
import Aldivine.Replication.Model

namespace Aldivine.Replication.Resend

open Foundation.Execution Foundation.Locate Foundation.Machine Foundation.Table Model Std

def isAcknowledge : Call × Reply → Bool
  | (.acknowledge _, _) => true
  | _ => false

/-- The deltas that left in a delta packet since the last acknowledgement and were not recorded anew
since. -/
def outstanding (history : List (Call × Reply)) : List Delta :=
  shipped (since isAcknowledge history)

def Carries : Reply → Delta → Prop
  | .sent (.snapshot _ fields), d => fields[d.component]? = some d.data
  | .sent (.delta deltas), d => d ∈ deltas
  | _, _ => False

def Resends (mode : Overflow) (t : ReplicationTracker) (history : List (Call × Reply))
    (call : Call) : Prop :=
  ∀ now force, call = .flush now force →
    ∀ d ∈ outstanding history, Carries (step mode t call).2 d

/-- What the tracker has for a component: its last pending delta (of whatever entity), or else the
baseline's data. -/
def dataOf (t : ReplicationTracker) (component : String) : Option (List UInt8) :=
  ((t.pending.reverse.find? (fun d ↦ d.component = component)).map (·.data)).or
    t.baseline.fields[component]?

/-- No delta is outstanding when one is sent, and when a snapshot is forced the tracker still has
the same data for the component of every outstanding one. -/
def Spared (t : ReplicationTracker) (history : List (Call × Reply)) : Call → Prop
  | .flush _ false => outstanding history = []
  | .flush _ true => ∀ d ∈ outstanding history, dataOf t d.component = some d.data
  | _ => True

def Unqueued (t : ReplicationTracker) (history : List (Call × Reply)) : Prop :=
  ∀ d ∈ outstanding history, ∀ p ∈ t.pending, p.entity = d.entity → p.component ≠ d.component

variable {mode : Overflow} {t t' : ReplicationTracker} {history : List (Call × Reply)}

theorem outstanding_concat {x : Call × Reply} (hx : isAcknowledge x = false) :
    outstanding (history ++ [x]) = ship (outstanding history) x := by
  rw [outstanding, since_concat_miss _ _ hx, shipped_concat]
  rfl

theorem outstanding_acknowledge {tick : Tick} {reply : Reply} :
    outstanding (history ++ [(.acknowledge tick, reply)]) = [] := by
  rw [outstanding, since, List.rtakeWhile_concat_neg _ _ _ (by simp [isAcknowledge])]
  rfl

theorem mem_record {delta p : Delta} (hp : p ∈ (t.record delta).pending) :
    p = delta ∨ p ∈ t.pending := by
  unfold ReplicationTracker.record at hp
  split at hp
  · rename_i existing hfind
    rw [(locate_split hfind).1]
    simp only [Located.put, List.mem_append, List.mem_cons] at hp ⊢
    tauto
  · rcases List.mem_append.mp hp with hp | hp
    · exact .inr hp
    · exact .inl (List.mem_singleton.mp hp)

theorem step_unqueued {call : Call} (hroom : Room mode t call) (hunqueued : Unqueued t history) :
    Unqueued (step mode t call).1 (history ++ [(call, (step mode t call).2)]) := by
  have hstepped := stepped hroom
  generalize step mode t call = r at hstepped
  obtain ⟨t', reply⟩ := r
  cases hstepped with
  | @record delta =>
    intro d hd p hp
    rw [outstanding_concat rfl, ship, List.mem_filter] at hd
    rcases mem_record hp with rfl | hp
    · intro hentity hcomponent
      simp [hentity, hcomponent] at hd
    · exact hunqueued d hd.1 p hp
  | acknowledge =>
    intro d hd
    rw [outstanding_acknowledge] at hd
    cases hd
  | setTier =>
    intro d hd
    rw [outstanding_concat rfl] at hd
    exact hunqueued d hd
  | snapshot hpending hfields =>
    intro d hd p hp
    rw [hpending] at hp
    cases hp
  | delta hpending hfields =>
    intro d hd p hp
    rw [hpending] at hp
    cases hp

theorem resends_iff {call : Call} (hroom : Room mode t call) (hunqueued : Unqueued t history) :
    Resends mode t history call ↔ Spared t history call := by
  have hstepped := stepped hroom
  unfold Resends
  generalize step mode t call = r at hstepped
  obtain ⟨t', reply⟩ := r
  cases hstepped with
  | record => exact iff_of_true (fun _ _ h ↦ by cases h) trivial
  | acknowledge => exact iff_of_true (fun _ _ h ↦ by cases h) trivial
  | setTier => exact iff_of_true (fun _ _ h ↦ by cases h) trivial
  | @snapshot now _ tick hpending hfields =>
    have hcarries (d : Delta) :
        Carries (.sent (.snapshot tick (overlay t.baseline.fields t.pending))) d ↔
          dataOf t d.component = some d.data := by
      rw [Carries, overlay, getElem?_foldl_insert, dataOf]
    constructor
    · intro h d hd
      exact (hcarries d).mp (h now true rfl d hd)
    · intro h _ _ _ d hd
      exact (hcarries d).mpr (h d hd)
  | @delta now _ hpending hfields =>
    constructor
    · intro h
      rw [Spared, List.eq_nil_iff_forall_not_mem]
      intro d hd
      exact hunqueued d hd d (h now false rfl d hd) rfl rfl
    · intro h _ _ _ d hd
      rw [Spared] at h
      rw [h] at hd
      cases hd

/-- Nothing outstanding is ever forgotten exactly when nothing is outstanding at a flush, unless a
forced snapshot has the data anyway. -/
theorem never_forgotten_iff (calls : List Call)
    (hroom : ∀ x ∈ trace (step mode) t calls, Room mode x.1 x.2) :
    Throughout (step mode) t (Resends mode) calls ↔ Throughout (step mode) t Spared calls := by
  have hempty : Unqueued t [] := List.forall_mem_nil _
  have hrun := throughout_run_iff (I := fun _ _ ↦ True) (A := fun t _ call ↦ Room mode t call)
    (B := Unqueued) (P := Spared) (Q := Resends mode)
    (fun t history call hadm hunqueued _ ↦ step_unqueued hadm hunqueued)
    (fun t history call hadm hunqueued _ ↦
      (and_iff_right trivial).trans (resends_iff hadm hunqueued))
    hempty trivial calls (throughout_trace.mpr hroom)
  rw [← hrun]
  exact (and_iff_right (fun _ _ ↦ trivial)).symm

theorem acknowledged_never_forgotten :
    Throughout (step .wraps) (.new 0) (Resends .wraps)
      [.record ⟨7, "pos", [1]⟩, .flush 0 false, .acknowledge 1, .flush 1 false] := by
  refine (never_forgotten_iff _ ?_).mpr ?_
  · intro x hx
    simp only [trace, List.mem_cons, List.not_mem_nil, or_false] at hx
    rcases hx with rfl | rfl | rfl | rfl
    · trivial
    · exact .inl rfl
    · trivial
    · exact .inl rfl
  · have hfirst : Throughout (step .wraps) (.new 0) Spared
        ([] ++ [.record ⟨7, "pos", [1]⟩] ++ [.flush 0 false] ++ [.acknowledge 1]) := by
      simp only [throughout_concat]
      exact ⟨⟨⟨throughout_nil, trivial⟩, rfl⟩, trivial⟩
    refine (throughout_concat (i := .flush 1 false)).mpr ⟨hfirst, ?_⟩
    rw [answers_concat]
    exact outstanding_acknowledge

/-- The second flush is empty although the first was never acknowledged. -/
theorem unacknowledged_forgotten :
    ¬Throughout (step .wraps) (.new 0) (Resends .wraps)
      [.record ⟨7, "pos", [1]⟩, .flush 0 false, .flush 1 false] := by
  intro h
  have hagain := h [.record ⟨7, "pos", [1]⟩, .flush 0 false] (.flush 1 false) List.prefix_rfl
    1 false rfl ⟨7, "pos", [1]⟩ List.mem_cons_self
  exact List.not_mem_nil hagain

end Aldivine.Replication.Resend
