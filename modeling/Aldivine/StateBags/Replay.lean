import Aldivine.Foundation.Execution
import Aldivine.Foundation.Table
import Aldivine.StateBags.Model

namespace Aldivine.StateBags.Replay

open Foundation.Execution Foundation.Machine Foundation.Table Model Std

def received (h : BitVec 64) (deliveries : List Delivery) : List ChangeEvent :=
  (deliveries.filter (fun d ↦ d.1 == h)).map (·.2)

def eventsOf (h : BitVec 64) (history : List (Call × Effect)) : List ChangeEvent :=
  history.flatMap (fun x ↦ received h x.2.2)

def follow (m : ExtTreeMap String Value) (e : ChangeEvent) : ExtTreeMap String Value :=
  match e.new with
  | some v => m.insert e.key v
  | none => m.erase e.key

/-- A replica that follows the handler's events has the bag's map, and the events are numbered from
one up to the bag's own number. -/
structure Followed (h : BitVec 64) (b : StateBag) (history : List (Call × Effect)) : Prop where
  rebuilt : ∀ key : String, ((eventsOf h history).foldl follow ∅)[key]? = b.get key
  numbered : (eventsOf h history).map (·.seq.toNat) = List.range' 1 b.seq.toNat

def NamesOld (mode : Overflow) (h : BitVec 64) (b : StateBag) (call : Call) : Prop :=
  ∀ e ∈ received h (step mode b call).2.2, e.old = b.get e.key

def Replayed (mode : Overflow) (h : BitVec 64) (b : StateBag) (calls : List Call) : Prop :=
  (∀ before, before <+: calls →
      Followed h (run (step mode) b before) (answers (step mode) b before)) ∧
    ∀ x ∈ trace (step mode) b calls, NamesOld mode h x.1 x.2

/-- The call does not delete a key that exists, does not make a key by flagging it, and has a number
left for what it writes (a write that panics for want of one changes nothing). -/
def Announced (mode : Overflow) (b : StateBag) : Call → Prop
  | .set key value _ =>
    b.seq.toNat + 1 < 2 ^ 64 ∨ (mode = .panics ∧ b.get key = some value)
  | .setReplicated key _ _ => key ∈ b.values
  | .delete key _ => key ∉ b.values
  | .setOwner _ => True

section Bag

variable {b b' : StateBag} {key : String} {h : BitVec 64}

theorem mem_of_slot {slot : Value × Bool} (hslot : b.values[key]? = some slot) :
    key ∈ b.values := by
  rw [ExtTreeMap.mem_iff_isSome_getElem?, hslot]
  rfl

theorem not_mem_of_slot (hslot : b.values[key]? = none) : key ∉ b.values := by
  rw [ExtTreeMap.mem_iff_isSome_getElem?, hslot]
  exact Bool.false_ne_true

theorem get_eq_none : b.get key = none ↔ key ∉ b.values := by
  rw [StateBag.get, Option.map_eq_none_iff, ExtTreeMap.mem_iff_isSome_getElem?,
    Option.not_isSome_iff_eq_none]

theorem get_insert {v : Value × Bool} (hb : b'.values = b.values.insert key v) (k : String) :
    b'.get k = if key = k then some v.1 else b.get k := by
  rw [StateBag.get, hb, ExtTreeMap.getElem?_insert]
  simp only [Std.compare_eq_iff_eq]
  split <;> rfl

theorem get_erase {k : String} (hb : b'.values = b.values.erase key) :
    b'.get k = if key = k then none else b.get k := by
  rw [StateBag.get, hb, ExtTreeMap.getElem?_erase]
  simp only [Std.compare_eq_iff_eq]
  split <;> rfl

theorem received_dispatch (hsub : b.handlers[h]? = some none) (e : ChangeEvent) :
    received h (b.dispatch e) = [e] := by
  have hdistinct : b.handlers.toList.Pairwise (fun a b ↦ a.1 ≠ b.1) :=
    ExtTreeMap.distinct_keys_toList.imp (fun hne heq ↦ hne (Std.compare_eq_iff_eq.mpr heq))
  have hmem := ExtTreeMap.mem_toList_iff_getElem?_eq_some.mpr hsub
  have hone := filter_key_eq hdistinct hmem
  have hmine : (b.handlers.toList.filter (fun x ↦ x.2.all (· == e.key))).filter
      (fun x ↦ x.1 == h) = [(h, none)] := by
    rw [List.filter_comm, hone]
    rfl
  rw [received, StateBag.dispatch, List.filter_map, List.map_map]
  exact congrArg (List.map fun _ ↦ e) hmine

end Bag

section Steps

variable {mode : Overflow} {h : BitVec 64} {b b' : StateBag} {history : List (Call × Effect)}
  {x : Call × Effect}

theorem followed_new (hvalues : b.values = ∅) (hseq : b.seq = 0) : Followed h b [] := by
  refine ⟨fun key ↦ ?_, ?_⟩
  · rw [StateBag.get, hvalues]
    simp [eventsOf]
  · rw [hseq]
    rfl

theorem eventsOf_concat : eventsOf h (history ++ [x]) = eventsOf h history ++ received h x.2.2 := by
  simp [eventsOf]

theorem followed_silent (hf : Followed h b history) (hnone : received h x.2.2 = [])
    (hseq : b'.seq = b.seq) (hget : ∀ key, b'.get key = b.get key) :
    Followed h b' (history ++ [x]) := by
  have hevents : eventsOf h (history ++ [x]) = eventsOf h history := by
    rw [eventsOf_concat, hnone, List.append_nil]
  refine ⟨fun key ↦ ?_, ?_⟩
  · rw [hevents, hget]
    exact hf.rebuilt key
  · rw [hevents, hseq]
    exact hf.numbered

/-- A call that tells the handler nothing must leave what the keys hold alone. -/
theorem not_followed_silent (key : String) (hf : Followed h b history)
    (hnone : received h x.2.2 = []) (hne : b'.get key ≠ b.get key) :
    ¬Followed h b' (history ++ [x]) := by
  intro hf'
  apply hne
  rw [← hf'.rebuilt, ← hf.rebuilt, eventsOf_concat, hnone, List.append_nil]

theorem followed_event {e : ChangeEvent} (hf : Followed h b history) (hone : received h x.2.2 = [e])
    (hseq : e.seq = b'.seq) (hsucc : b'.seq.toNat = b.seq.toNat + 1)
    (hget : ∀ key, b'.get key = if e.key = key then e.new else b.get key) :
    Followed h b' (history ++ [x]) := by
  have hevents : eventsOf h (history ++ [x]) = eventsOf h history ++ [e] := by
    rw [eventsOf_concat, hone]
  refine ⟨fun key ↦ ?_, ?_⟩
  · rw [hevents, List.foldl_append, List.foldl_cons, List.foldl_nil, hget, ← hf.rebuilt, follow]
    cases e.new with
    | none =>
      rw [ExtTreeMap.getElem?_erase]
      simp only [Std.compare_eq_iff_eq]
    | some v =>
      rw [ExtTreeMap.getElem?_insert]
      simp only [Std.compare_eq_iff_eq]
  · rw [hevents, List.map_append, hf.numbered, hsucc, List.range'_1_concat, List.map_singleton,
      hseq, hsucc, Nat.add_comm]

theorem not_followed_of_zero {e : ChangeEvent} (hone : received h x.2.2 = [e])
    (hzero : b'.seq.toNat = 0) : ¬Followed h b' (history ++ [x]) := by
  intro hf
  have hnumbered := congrArg List.length hf.numbered
  rw [eventsOf_concat, hone, hzero] at hnumbered
  simp at hnumbered

theorem not_followed_made {key : String} {replicated : Bool} (hf : Followed h b history)
    (hslot : b.values[key]? = none) (hnone : received h x.2.2 = [])
    (hb : b'.values = b.values.insert key (.nil, replicated)) :
    ¬Followed h b' (history ++ [x]) := by
  have hnew := get_eq_none.mpr (not_mem_of_slot hslot)
  refine not_followed_silent key hf hnone ?_
  rw [get_insert hb, if_pos rfl, hnew]
  exact Option.some_ne_none _

section Writes

variable {key : String} {value : Value} {replicated : Bool}

theorem followed_written_iff {seq : BitVec 64} (writer : OwnerId) (hf : Followed h b history)
    (hone : received h x.2.2 = [⟨b.id, key, b.get key, some value, seq⟩])
    (hseq : mode.add b.seq 1 = some seq) (hnow : b'.seq = seq)
    (hb : b'.values = b.values.insert key (value, replicated)) :
    Followed h b' (history ++ [x]) ↔ Announced mode b (.set key value writer) := by
  subst hnow
  rcases add_one_cases mode b.seq with hfits | hround | hpanic
  · obtain ⟨y, hy, hroom, hsucc⟩ := hfits
    cases hseq.symm.trans hy
    exact iff_of_true (followed_event hf hone rfl hsucc (get_insert hb)) (.inl hroom)
  · obtain ⟨y, hy, hfull, hmode, hzero⟩ := hround
    cases hseq.symm.trans hy
    refine iff_of_false (not_followed_of_zero hone hzero) (fun hann ↦ ?_)
    rcases hann with hroom | ⟨hmode', -⟩
    · exact hroom.ne hfull
    · cases hmode.symm.trans hmode'
  · cases hseq.symm.trans hpanic.1

theorem followed_writePanic_iff (writer : OwnerId) (hf : Followed h b history)
    (hnone : received h x.2.2 = []) (hseq : mode.add b.seq 1 = none) (hnow : b'.seq = b.seq)
    (hb : b'.values = b.values.insert key (value, replicated)) :
    Followed h b' (history ++ [x]) ↔ Announced mode b (.set key value writer) := by
  obtain ⟨hfull, hmode⟩ := add_one_eq_none hseq
  by_cases hsame : b.get key = some value
  · refine iff_of_true (followed_silent hf hnone hnow (fun k ↦ ?_)) (.inr ⟨hmode, hsame⟩)
    rw [get_insert hb]
    split
    · subst_vars
      exact hsame.symm
    · rfl
  · refine iff_of_false (not_followed_silent key hf hnone ?_) (fun hann ↦ ?_)
    · rw [get_insert hb, if_pos rfl]
      exact fun heq ↦ hsame heq.symm
    · rcases hann with hroom | ⟨-, heq⟩
      · exact hroom.ne hfull
      · exact hsame heq

end Writes

theorem handlers_step (mode : Overflow) (b : StateBag) (call : Call) :
    (step mode b call).1.handlers = b.handlers := by
  have hstepped := stepped mode b call
  generalize step mode b call = r at hstepped
  cases hstepped <;> rfl

theorem step_followed_iff (call : Call) (hsub : b.handlers[h]? = some none)
    (hf : Followed h b history) :
    Followed h (step mode b call).1 (history ++ [(call, (step mode b call).2)]) ∧
        NamesOld mode h b call ↔
      (Accepts b call → Announced mode b call) := by
  have hstepped := stepped mode b call
  unfold NamesOld
  generalize step mode b call = r at hstepped
  cases hstepped with
  | refused hno =>
    exact iff_of_true ⟨followed_silent hf rfl rfl (fun _ ↦ rfl), List.forall_mem_nil _⟩
      (fun hok ↦ absurd hok hno)
  | @written key value writer replicated seq hok hseq =>
    have hone := received_dispatch hsub ⟨b.id, key, b.get key, some value, seq⟩
    have hold : ∀ e ∈ received h (b.dispatch ⟨b.id, key, b.get key, some value, seq⟩),
        e.old = b.get e.key := by
      rw [hone]
      exact List.forall_mem_singleton.mpr rfl
    rw [and_iff_left hold, forall_prop_of_true hok]
    exact followed_written_iff writer hf hone hseq rfl rfl
  | @writePanic key value writer replicated hok hseq =>
    have hold : ∀ e ∈ received h [], e.old = b.get e.key := List.forall_mem_nil _
    rw [and_iff_left hold, forall_prop_of_true hok]
    exact followed_writePanic_iff writer hf rfl hseq rfl rfl
  | @flagged key replicated writer slot hok hslot =>
    have hmem := mem_of_slot hslot
    refine iff_of_true ⟨followed_silent hf rfl rfl (fun k ↦ ?_), List.forall_mem_nil _⟩
      (fun _ ↦ hmem)
    rw [get_insert (b := b) (v := (slot.1, replicated)) rfl]
    split
    · subst_vars
      rw [StateBag.get, hslot]
      rfl
    · rfl
  | @made key replicated writer seq hok hslot hseq =>
    have hnew := not_mem_of_slot hslot
    refine iff_of_false (fun hboth ↦ ?_) (fun hann ↦ hnew (hann hok))
    exact not_followed_made hf hslot rfl rfl hboth.1
  | @makePanic key replicated writer hok hslot hseq =>
    have hnew := not_mem_of_slot hslot
    refine iff_of_false (fun hboth ↦ ?_) (fun hann ↦ hnew (hann hok))
    exact not_followed_made hf hslot rfl rfl hboth.1
  | @missing key writer hok hslot =>
    have hnew := not_mem_of_slot hslot
    exact iff_of_true ⟨followed_silent hf rfl rfl (fun _ ↦ rfl), List.forall_mem_nil _⟩
      (fun _ ↦ hnew)
  | @deleted key writer slot seq hok hslot hseq =>
    have hmem := mem_of_slot hslot
    have hone := received_dispatch hsub ⟨b.id, key, none, none, seq⟩
    refine iff_of_false (fun hboth ↦ ?_) (fun hann ↦ hann hok hmem)
    have hold := hboth.2 ⟨b.id, key, none, none, seq⟩ (by rw [hone]; exact List.mem_cons_self)
    exact get_eq_none.mp hold.symm hmem
  | @deletePanic key writer slot hok hslot hseq =>
    have hmem := mem_of_slot hslot
    refine iff_of_false (fun hboth ↦ ?_) (fun hann ↦ hann hok hmem)
    refine not_followed_silent key hf rfl ?_ hboth.1
    rw [get_erase (b := b) rfl, if_pos rfl]
    exact fun heq ↦ get_eq_none.mp heq.symm hmem
  | owned =>
    exact iff_of_true ⟨followed_silent hf rfl rfl (fun _ ↦ rfl), List.forall_mem_nil _⟩
      (fun _ ↦ trivial)

/-- The handler's events tell the whole story exactly as long as every accepted call announces
itself. -/
theorem replica_follows_iff (hvalues : b.values = ∅) (hseq : b.seq = 0)
    (hsub : b.handlers[h]? = some none) (calls : List Call) :
    Replayed mode h b calls ↔
      ∀ x ∈ trace (step mode) b calls, Accepts x.1 x.2 → Announced mode x.1 x.2 := by
  refine steps_run_iff (B := fun b _ ↦ b.handlers[h]? = some none) (I := Followed h)
    (P := fun b call ↦ Accepts b call → Announced mode b call) ?_ ?_ hsub
    (followed_new hvalues hseq) calls
  · intro b history call hb _
    rw [handlers_step]
    exact hb
  · intro b history call hb hf
    exact step_followed_iff call hb hf

end Steps

/-- A bag that anyone may write to, watched from the start by the handler `0`. -/
def watched : StateBag := ((StateBag.new "player" .open).onChange .panics none).1

theorem watched_handlers : watched.handlers[(0 : BitVec 64)]? = some none := by
  exact ExtTreeMap.getElem?_insert_self

theorem watched_followed : Followed 0 watched [] :=
  followed_new rfl rfl

theorem write_then_flag_replayed :
    Replayed .panics 0 watched [.set "hp" (.int 5) 1, .setReplicated "hp" false 1] := by
  refine (replica_follows_iff rfl rfl watched_handlers _).mpr ?_
  intro x hx hok
  rcases List.mem_cons.mp hx with rfl | hx
  · exact .inl (by decide)
  · cases List.mem_singleton.mp hx
    exact ExtTreeMap.mem_insert_self

/-- The event of a deletion does not name the value that is gone, and a flag on an unknown key makes
the key without an event. -/
theorem delete_and_flag_not_replayed :
    ¬Replayed .panics 0 watched [.set "hp" (.int 5) 1, .delete "hp" 1] ∧
      ¬Replayed .panics 0 watched [.setReplicated "hp" true 1] := by
  constructor
  · rintro ⟨hfollowed, hold⟩
    have hset := hfollowed [.set "hp" (.int 5) 1] ⟨[.delete "hp" 1], rfl⟩
    have hdelete := hfollowed _ List.prefix_rfl
    have hsub : (run (step .panics) watched [.set "hp" (.int 5) 1]).handlers[(0 : BitVec 64)]? =
        some none := watched_handlers
    have hann := (step_followed_iff (.delete "hp" 1) hsub hset).mp
      ⟨hdelete, hold _ (List.mem_cons_of_mem _ List.mem_cons_self)⟩
    exact hann rfl ExtTreeMap.mem_insert_self
  · rintro ⟨hfollowed, hold⟩
    have hflag := hfollowed _ List.prefix_rfl
    have hann := (step_followed_iff (.setReplicated "hp" true 1) watched_handlers
      watched_followed).mp ⟨hflag, hold _ List.mem_cons_self⟩
    exact ExtTreeMap.not_mem_empty (hann rfl)

end Aldivine.StateBags.Replay
