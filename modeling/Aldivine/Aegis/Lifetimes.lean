import Aldivine.Aegis.Sessions

namespace Aldivine.Aegis.Lifetimes

open Foundation.Execution Foundation.Machine Foundation.Table Sessions

variable {mode : Overflow} {st st' : SessionStore} {call : Call} {answer : Answer} {s : Session}
  {t : String} {c : Creation} {h : List Event} {x : Event} {now : BitVec 64}

section Steps

theorem isLive_iff : s.isLive now = true ↔
    now.toNat < s.absoluteExpires.toNat ∧ now.toNat < s.idleExpires.toNat := by
  rw [Session.isLive, Bool.and_eq_true, decide_eq_true_iff, decide_eq_true_iff, BitVec.lt_def,
    BitVec.lt_def]

theorem add_fits {a b : BitVec 64} (hfits : a.toNat + b.toNat < 2 ^ 64) :
    ∃ sum, mode.add a b = some sum ∧ sum.toNat = a.toNat + b.toNat := by
  refine ⟨_, word_of_lt hfits, ?_⟩
  rw [BitVec.toNat_ofNat, Nat.mod_eq_of_lt hfits]

/-- The stored record of a session created by `c` and last active at `a`. -/
structure Tells (st : SessionStore) (t : String) (c : Creation) (a : BitVec 64) (s : Session) :
    Prop where
  token : s.token = t
  userId : s.userId = c.userId
  issuedAt : s.issuedAt = c.now
  lastActivity : s.lastActivity = a
  absoluteExpires : s.absoluteExpires.toNat = c.now.toNat + st.absoluteTtl.toNat
  idleExpires : s.idleExpires.toNat = a.toNat + st.idleTtl.toNat
  fullyAuthenticated : s.fullyAuthenticated = c.fullyAuthenticated

inductive Move (st : SessionStore) (t : String) (call : Call) (st' : SessionStore)
    (answer : Answer) : Prop
  | created (c : Creation) (s : Session)
    (hcreation : creation t (call, answer) = some c)
    (hactivity : activity t (call, answer) = some c.now)
    (hlookup : st'.sessions.lookup t = some s) (htells : Tells st t c c.now s)
  | refreshed (s s' : Session) (now : BitVec 64)
    (hcall : call = .validate t now) (hanswer : answer = .validated (some s'))
    (hbefore : st.sessions.lookup t = some s) (hlookup : st'.sessions.lookup t = some s')
    (htells : ∀ c a, Tells st t c a s → Tells st t c now s')
  | dropped (s : Session)
    (hcreation : creation t (call, answer) = none) (hactivity : activity t (call, answer) = none)
    (hbefore : st.sessions.lookup t = some s) (hlookup : st'.sessions.lookup t = none)
    (hreason : Ends t s.userId call ∨ ∃ now, call.time = some now ∧ s.isLive now = false)
  | kept (hcreation : creation t (call, answer) = none) (hactivity : activity t (call, answer) = none)
    (hlookup : st'.sessions.lookup t = st.sessions.lookup t)
    (hends : ∀ s ∈ st.sessions.lookup t, ¬Ends t s.userId call)

theorem create_move (token userId : String) (now : BitVec 64) (fully : Bool)
    (hfits : Fits st (.create token userId now fully)) :
    Move st t (.create token userId now fully) (st.create mode token userId now fully).1
      (st.create mode token userId now fully).2 := by
  obtain ⟨habsolute, hidle⟩ := hfits
  obtain ⟨absolute, hadd, habsolute⟩ := @add_fits mode _ _ habsolute
  obtain ⟨idle, hadd', hidle⟩ := @add_fits mode _ _ hidle
  simp only [SessionStore.create, hadd, hadd']
  by_cases ht : token = t
  · subst ht
    refine .created ⟨userId, now, fully⟩ _ ?_ ?_ (AList.lookup_insert _) ?_
    · simp [creation]
    · simp [activity]
    · exact ⟨rfl, rfl, rfl, rfl, habsolute, hidle, rfl⟩
  · refine .kept ?_ ?_ (AList.lookup_insert_ne (Ne.symm ht)) ?_
    · simp [creation, ht]
    · simp [activity, ht]
    · intro s _
      simp [Ends]

theorem validate_other {token : String} (ht : token ≠ t) :
    Move st t (.validate token now) (st.validate mode token now).1
      (st.validate mode token now).2 := by
  have hactivity (answer : Answer) : activity t (.validate token now, answer) = none := by
    cases answer with
    | validated found =>
      cases found with
      | none => rfl
      | some s => exact if_neg ht
    | _ => rfl
  refine .kept rfl (hactivity _) ?_ (by simp [Ends])
  unfold SessionStore.validate
  split
  · rfl
  split
  · split
    · exact AList.lookup_insert_ne (Ne.symm ht)
    · exact AList.lookup_insert_ne (Ne.symm ht)
  · exact AList.lookup_erase_ne (Ne.symm ht)

theorem validate_self (hfits : Fits st (.validate t now)) :
    Move st t (.validate t now) (st.validate mode t now).1 (st.validate mode t now).2 := by
  unfold SessionStore.validate
  cases hs : st.sessions.lookup t with
  | none =>
    refine .kept rfl rfl rfl ?_
    intro s hmem
    rw [hs] at hmem
    cases hmem
  | some s =>
    cases hlive : s.isLive now with
    | true =>
      obtain ⟨idle, hadd, hidle⟩ := @add_fits mode _ _ (hfits s hs hlive)
      simp only [hadd, hlive, if_true]
      refine .refreshed s _ now rfl rfl hs (AList.lookup_insert _) ?_
      intro c a htells
      exact ⟨htells.token, htells.userId, htells.issuedAt, rfl, htells.absoluteExpires, hidle,
        htells.fullyAuthenticated⟩
    | false =>
      simp only [hlive, Bool.false_eq_true, if_false]
      exact .dropped s rfl rfl hs (AList.lookup_erase _ _) (.inr ⟨now, rfl, hlive⟩)

theorem invalidate_move (token : String) :
    Move st t (.invalidate token) (st.invalidate token).1 (st.invalidate token).2 := by
  by_cases ht : token = t
  · subst ht
    cases hs : st.sessions.lookup token with
    | none =>
      refine .kept rfl rfl ?_ ?_
      · exact (AList.lookup_erase _ _).trans hs.symm
      · intro s hmem
        rw [hs] at hmem
        cases hmem
    | some s => exact .dropped s rfl rfl hs (AList.lookup_erase _ _) (.inl (.inl rfl))
  · refine .kept rfl rfl (AList.lookup_erase_ne (Ne.symm ht)) ?_
    intro s _
    simp [Ends, ht]

theorem lookup_removeWhere (p : Session → Bool) :
    (st.removeWhere p).1.sessions.lookup t = (st.sessions.lookup t).filter (fun s ↦ !p s) :=
  lookup_erase_collected p st.sessions

/-- Sessions removed in bulk: each for a reason of its own, the others as they were. -/
theorem removeWhere_move {p : Session → Bool}
    (hcreation : creation t (call, (st.removeWhere p).2) = none)
    (hactivity : activity t (call, (st.removeWhere p).2) = none)
    (hreason : ∀ s, p s = true →
      Ends t s.userId call ∨ ∃ now, call.time = some now ∧ s.isLive now = false)
    (hends : ∀ s, p s = false → ¬Ends t s.userId call) :
    Move st t call (st.removeWhere p).1 (st.removeWhere p).2 := by
  cases hs : st.sessions.lookup t with
  | none =>
    refine .kept hcreation hactivity ?_ ?_
    · rw [lookup_removeWhere, hs]
      rfl
    · intro s hmem
      rw [hs] at hmem
      cases hmem
  | some s =>
    cases hp : p s with
    | true =>
      refine .dropped s hcreation hactivity hs ?_ (hreason s hp)
      rw [lookup_removeWhere, hs]
      simp [Option.filter, hp]
    | false =>
      refine .kept hcreation hactivity ?_ ?_
      · rw [lookup_removeWhere, hs]
        simp [Option.filter, hp]
      · intro other hmem
        rw [hs, Option.mem_some_iff] at hmem
        rw [← hmem]
        exact hends s hp

theorem step_move (hfits : Fits st call) :
    Move st t call (step mode st call).1 (step mode st call).2 := by
  cases call with
  | create token userId now fully => exact create_move token userId now fully hfits
  | validate token now =>
    by_cases ht : token = t
    · subst ht
      exact validate_self hfits
    · exact validate_other ht
  | invalidate token => exact invalidate_move token
  | invalidateUser userId =>
    refine removeWhere_move rfl rfl (fun s hp ↦ .inl (.inr ?_)) (fun s hp ↦ ?_)
    · rw [eq_of_beq hp]
    · intro hends
      obtain hcall | hcall := hends
      · cases hcall
      · cases hcall
        rw [beq_self_eq_true] at hp
        cases hp
  | gc now =>
    refine removeWhere_move rfl rfl (fun s hp ↦ .inr ⟨now, rfl, ?_⟩) (fun s _ ↦ by simp [Ends])
    simpa using hp

theorem step_ttls (mode : Overflow) (st : SessionStore) (call : Call) :
    (step mode st call).1.absoluteTtl = st.absoluteTtl ∧
      (step mode st call).1.idleTtl = st.idleTtl := by
  cases call with
  | create token userId now fully =>
    simp only [step, SessionStore.create]
    split <;> exact ⟨rfl, rfl⟩
  | validate token now =>
    simp only [step, SessionStore.validate]
    split
    · exact ⟨rfl, rfl⟩
    split
    · split <;> exact ⟨rfl, rfl⟩
    · exact ⟨rfl, rfl⟩
  | invalidate token => exact ⟨rfl, rfl⟩
  | invalidateUser userId => exact ⟨rfl, rfl⟩
  | gc now => exact ⟨rfl, rfl⟩

end Steps

section Histories

theorem call_of_creation (hc : creation t x = some c) :
    x.1 = .create t c.userId c.now c.fullyAuthenticated := by
  unfold creation at hc
  split at hc
  · split at hc
    · rename_i htoken
      cases hc
      rw [htoken]
    · cases hc
  · cases hc

theorem creationOf_created (hc : creation t x = some c) : creationOf (h ++ [x]) t = some c := by
  rw [creationOf, latest_concat, hc]
  rfl

theorem sinceCreation_created (hc : creation t x = some c) : sinceCreation (h ++ [x]) t = [] :=
  since_concat_hit _ h (Option.isSome_of_mem hc)

theorem creationOf_kept (hc : creation t x = none) :
    creationOf (h ++ [x]) t = creationOf h t := by
  rw [creationOf, latest_concat, hc]
  rfl

theorem sinceCreation_kept (hc : creation t x = none) :
    sinceCreation (h ++ [x]) t = sinceCreation h t ++ [x] :=
  since_concat_miss _ h (by rw [hc]; rfl)

theorem activityOf_concat : activityOf (h ++ [x]) t = (activity t x).or (activityOf h t) :=
  latest_concat _ _ _

def TimesBelow (h : List Event) (now : BitVec 64) : Prop :=
  ∀ x ∈ h, ∀ b ∈ x.1.time, b.toNat ≤ now.toNat

variable {absoluteTtl idleTtl : BitVec 64}

theorem valid_of_concat (hc : creation t x = none) (ha : activity t x = none)
    (hv : Valid absoluteTtl idleTtl (h ++ [x]) t now) : Valid absoluteTtl idleTtl h t now := by
  obtain ⟨c, hcreation, hends, habsolute, hidle⟩ := hv
  rw [creationOf_kept hc] at hcreation
  rw [sinceCreation_kept hc] at hends
  rw [activityOf_concat, ha] at hidle
  exact ⟨c, hcreation, fun y hy ↦ hends y (List.mem_append_left _ hy), habsolute, hidle⟩

/-- What the store holds of every token says the same as the calls answered so far. -/
structure Tracked (absoluteTtl idleTtl : BitVec 64) (st : SessionStore) (h : List Event) :
    Prop where
  absolute : st.absoluteTtl = absoluteTtl
  idle : st.idleTtl = idleTtl
  present : ∀ t s, st.sessions.lookup t = some s →
    ∃ c a, creationOf h t = some c ∧ activityOf h t = some a ∧
      (∀ x ∈ sinceCreation h t, ¬Ends t c.userId x.1) ∧ Tells st t c a s
  absent : ∀ t, st.sessions.lookup t = none → ∀ now, TimesBelow h now →
    ¬Valid absoluteTtl idleTtl h t now

theorem Tracked.live_iff (hst : Tracked absoluteTtl idleTtl st h)
    (hs : st.sessions.lookup t = some s) :
    s.isLive now = true ↔ Valid absoluteTtl idleTtl h t now := by
  obtain ⟨c, a, hcreation, hactivity, hends, htells⟩ := hst.present t s hs
  rw [isLive_iff, htells.absoluteExpires, htells.idleExpires, hst.absolute, hst.idle]
  constructor
  · intro hlive
    refine ⟨c, hcreation, hends, hlive.1, fun b hb ↦ ?_⟩
    rw [hactivity, Option.mem_some_iff] at hb
    rw [← hb]
    exact hlive.2
  · intro hv
    obtain ⟨c', hcreation', -, habsolute, hidle⟩ := hv
    rw [hcreation, Option.some.injEq] at hcreation'
    rw [← hcreation'] at habsolute
    exact ⟨habsolute, hidle a hactivity⟩

theorem Tells.congr {a : BitVec 64} (htells : Tells st t c a s)
    (habsolute : st'.absoluteTtl = st.absoluteTtl) (hidle : st'.idleTtl = st.idleTtl) :
    Tells st' t c a s :=
  ⟨htells.token, htells.userId, htells.issuedAt, htells.lastActivity,
    by rw [habsolute]; exact htells.absoluteExpires, by rw [hidle]; exact htells.idleExpires,
    htells.fullyAuthenticated⟩

theorem not_isLive_of_le {later : BitVec 64} (hle : now.toNat ≤ later.toNat)
    (hdead : s.isLive now = false) : s.isLive later = false := by
  by_contra hlive
  rw [Bool.not_eq_false, isLive_iff] at hlive
  have hnow : s.isLive now = true := isLive_iff.mpr ⟨by omega, by omega⟩
  rw [hnow] at hdead
  cases hdead

theorem Tracked.move (hst : Tracked absoluteTtl idleTtl st h)
    (hmove : ∀ t, Move st t call st' answer) (habsolute : st'.absoluteTtl = st.absoluteTtl)
    (hidle : st'.idleTtl = st.idleTtl) :
    Tracked absoluteTtl idleTtl st' (h ++ [(call, answer)]) := by
  refine ⟨habsolute.trans hst.absolute, hidle.trans hst.idle, fun t s' hs' ↦ ?_,
    fun t hnone now hbelow hv ↦ ?_⟩
  · cases hmove t with
    | created c s hcreation hactivity hlookup htells =>
      obtain rfl := Option.some.inj (hs'.symm.trans hlookup)
      refine ⟨c, c.now, creationOf_created hcreation, ?_, ?_, htells.congr habsolute hidle⟩
      · rw [activityOf_concat, hactivity]
        rfl
      · rw [sinceCreation_created hcreation]
        exact List.forall_mem_nil _
    | refreshed s s'' now hcall hanswer hbefore hlookup htells =>
      subst hcall hanswer
      obtain rfl := Option.some.inj (hs'.symm.trans hlookup)
      obtain ⟨c, a, hcreation, -, hends, hold⟩ := hst.present t s hbefore
      refine ⟨c, now, ?_, ?_, ?_, (htells c a hold).congr habsolute hidle⟩
      · rwa [creationOf_kept rfl]
      · rw [activityOf_concat, activity, if_pos rfl]
        rfl
      · rw [sinceCreation_kept rfl, List.forall_mem_append, List.forall_mem_singleton]
        exact ⟨hends, by simp [Ends]⟩
    | dropped s _ _ _ hlookup =>
      rw [hlookup] at hs'
      cases hs'
    | kept hcreation hactivity hlookup hnot =>
      rw [hlookup] at hs'
      obtain ⟨c, a, hc, ha, hends, htells⟩ := hst.present t s' hs'
      refine ⟨c, a, ?_, ?_, ?_, htells.congr habsolute hidle⟩
      · rwa [creationOf_kept hcreation]
      · rwa [activityOf_concat, hactivity]
      · rw [sinceCreation_kept hcreation, List.forall_mem_append, List.forall_mem_singleton]
        refine ⟨hends, ?_⟩
        rw [← htells.userId]
        exact hnot s' hs'
  · rw [TimesBelow, List.forall_mem_append, List.forall_mem_singleton] at hbelow
    cases hmove t with
    | created c s _ _ hlookup =>
      rw [hlookup] at hnone
      cases hnone
    | refreshed s s'' _ _ _ _ hlookup =>
      rw [hlookup] at hnone
      cases hnone
    | dropped s hcreation hactivity hbefore hlookup hreason =>
      have hlive := (hst.live_iff hbefore).mpr (valid_of_concat hcreation hactivity hv)
      rcases hreason with hends | ⟨earlier, htime, hdead⟩
      · obtain ⟨c, a, hc, -, -, htells⟩ := hst.present t s hbefore
        obtain ⟨c', hc', hnot, -⟩ := hv
        rw [creationOf_kept hcreation, hc, Option.some.injEq] at hc'
        rw [sinceCreation_kept hcreation, List.forall_mem_append, List.forall_mem_singleton,
          ← hc', ← htells.userId] at hnot
        exact hnot.2 hends
      · rw [not_isLive_of_le (hbelow.2 earlier htime) hdead] at hlive
        cases hlive
    | kept hcreation hactivity hlookup _ =>
      rw [hlookup] at hnone
      exact hst.absent t hnone now hbelow.1 (valid_of_concat hcreation hactivity hv)

theorem tracked_new : Tracked absoluteTtl idleTtl (.withTtls absoluteTtl idleTtl) [] := by
  refine ⟨rfl, rfl, fun t s hs ↦ ?_, fun t _ now _ hv ↦ ?_⟩
  · cases hs
  · obtain ⟨c, hc, -⟩ := hv
    cases hc

theorem tracked_run (calls : List Call)
    (hfits : ∀ x ∈ trace (step mode) (.withTtls absoluteTtl idleTtl) calls, Fits x.1 x.2) :
    Tracked absoluteTtl idleTtl (run (step mode) (.withTtls absoluteTtl idleTtl) calls)
      (answers (step mode) (.withTtls absoluteTtl idleTtl) calls) := by
  refine invariant_throughout (P := fun st _ call ↦ Fits st call) ?_ tracked_new calls
    (throughout_trace.mpr hfits)
  intro st h call hst hfits
  have httls := step_ttls mode st call
  exact hst.move (fun t ↦ step_move hfits) httls.1 httls.2

end Histories

section Validation

theorem validate_answer (hfits : Fits st (.validate t now)) :
    ((∃ s, (st.validate mode t now).2 = .validated (some s)) ↔
        ∃ s, st.sessions.lookup t = some s ∧ s.isLive now = true) ∧
      ((st.validate mode t now).2 = .validated none →
        (st.validate mode t now).1.sessions.lookup t = none) := by
  unfold SessionStore.validate
  cases hs : st.sessions.lookup t with
  | none => simp [hs]
  | some s =>
    cases hlive : s.isLive now with
    | true =>
      obtain ⟨idle, hadd, -⟩ := @add_fits mode _ _ (hfits s hs hlive)
      simp [hadd, hlive]
    | false => simp [hlive]

/-- Validation renews a session; nothing else about it moves. -/
theorem validate_tells (hfits : Fits st (.validate t now))
    (hanswer : (st.validate mode t now).2 = .validated (some s)) :
    ∃ old, st.sessions.lookup t = some old ∧
      ∀ c a, Tells st t c a old → Tells st t c now s := by
  cases @validate_self mode st t now hfits with
  | created c s' hcreation => cases hcreation
  | refreshed old s' now' hcall hfound hbefore _ htells =>
    rw [hfound] at hanswer
    cases hanswer
    cases hcall
    exact ⟨old, hbefore, htells⟩
  | dropped old _ hactivity =>
    rw [hanswer, activity, if_pos rfl] at hactivity
    cases hactivity
  | kept _ hactivity =>
    rw [hanswer, activity, if_pos rfl] at hactivity
    cases hactivity

/-- A token without a session has none until it is created. -/
theorem absent_run {calls : List Call} (hnone : st.sessions.lookup t = none)
    (hcreate : ∀ userId now fully, Call.create t userId now fully ∉ calls)
    (hfits : ∀ x ∈ trace (step mode) st calls, Fits x.1 x.2) :
    (run (step mode) st calls).sessions.lookup t = none := by
  induction calls generalizing st with
  | nil => exact hnone
  | cons call calls ih =>
    obtain ⟨hfit, hrest⟩ := List.forall_mem_cons.mp hfits
    refine ih ?_ (fun userId now fully hmem ↦
      hcreate userId now fully (List.mem_cons_of_mem _ hmem)) hrest
    cases @step_move mode st call t hfit with
    | created c s hcreation =>
      have hcall : call = .create t c.userId c.now c.fullyAuthenticated :=
        call_of_creation hcreation
      rw [hcall] at hcreate
      exact absurd List.mem_cons_self (hcreate _ _ _)
    | refreshed s s' now _ _ hbefore =>
      rw [hnone] at hbefore
      cases hbefore
    | dropped s _ _ hbefore =>
      rw [hnone] at hbefore
      cases hbefore
    | kept _ _ hlookup => exact hlookup.trans hnone

theorem timesBelow_of_ordered {before calls : List Call}
    (hordered : Ordered calls) (hpre : before ++ [.validate t now] <+: calls)
    (st : SessionStore) : TimesBelow (answers (step mode) st before) now := by
  intro x hx b hb
  have hmem : x.1 ∈ before := by
    rw [← answers_inputs (step mode) st before]
    exact List.mem_map_of_mem hx
  obtain ⟨after, rfl⟩ := hpre
  rw [Ordered, List.append_assoc, List.filterMap_append, List.pairwise_append] at hordered
  refine hordered.2.2 b (List.mem_filterMap.mpr ⟨x.1, hmem, hb⟩) now ?_
  exact List.mem_filterMap.mpr ⟨_, List.mem_cons_self, rfl⟩

variable (mode) (absoluteTtl idleTtl : BitVec 64)

def validation (before : List Call) (t : String) (now : BitVec 64) : Answer :=
  (step mode (run (step mode) (.withTtls absoluteTtl idleTtl) before) (.validate t now)).2

def historyOf (calls : List Call) : List Event :=
  answers (step mode) (.withTtls absoluteTtl idleTtl) calls

structure Follows (before : List Call) (t : String) (now : BitVec 64) : Prop where
  valid_iff : (∃ s, validation mode absoluteTtl idleTtl before t now = .validated (some s)) ↔
    Valid absoluteTtl idleTtl (historyOf mode absoluteTtl idleTtl before) t now
  session : ∀ s, validation mode absoluteTtl idleTtl before t now = .validated (some s) →
    ∃ c, creationOf (historyOf mode absoluteTtl idleTtl before) t = some c ∧
      s.userId = c.userId ∧ s.absoluteExpires.toNat = c.now.toNat + absoluteTtl.toNat ∧
      s.fullyAuthenticated = c.fullyAuthenticated
  final : ∀ first later earlier, before = first ++ .validate t earlier :: later →
    validation mode absoluteTtl idleTtl first t earlier = .validated none →
    (∀ userId at' fully, Call.create t userId at' fully ∉ later) →
    ¬∃ s, validation mode absoluteTtl idleTtl before t now = .validated (some s)

variable {mode absoluteTtl idleTtl}

theorem sessions_follow_history (calls : List Call) (hordered : Ordered calls)
    (hfits : ∀ x ∈ trace (step mode) (.withTtls absoluteTtl idleTtl) calls, Fits x.1 x.2) :
    ∀ before t now, before ++ [.validate t now] <+: calls →
      Follows mode absoluteTtl idleTtl before t now := by
  intro before t now hpre
  have hbelow := @timesBelow_of_ordered mode _ _ _ _ hordered hpre (.withTtls absoluteTtl idleTtl)
  obtain ⟨after, rfl⟩ := hpre
  rw [List.append_assoc, trace_append, List.forall_mem_append] at hfits
  obtain ⟨hbefore, hafter⟩ := hfits
  have hfit := hafter _ List.mem_cons_self
  have htracked := tracked_run before hbefore
  obtain ⟨hiff, hgone⟩ := @validate_answer mode _ _ _ hfit
  refine ⟨?_, fun s hs ↦ ?_, fun first later earlier hsplit hfailed hcreate hsome ↦ ?_⟩
  · refine hiff.trans ?_
    constructor
    · intro hlive
      obtain ⟨s, hs, hlive⟩ := hlive
      exact (htracked.live_iff hs).mp hlive
    · intro hv
      cases hs : (run (step mode) (.withTtls absoluteTtl idleTtl) before).sessions.lookup t with
      | none => exact absurd hv (htracked.absent t hs now hbelow)
      | some s => exact ⟨s, rfl, (htracked.live_iff hs).mpr hv⟩
  · obtain ⟨old, hold, hrenewed⟩ := validate_tells hfit hs
    obtain ⟨c, a, hc, -, -, htells⟩ := htracked.present t old hold
    have hnow := hrenewed c a htells
    refine ⟨c, hc, hnow.userId, ?_, hnow.fullyAuthenticated⟩
    rw [hnow.absoluteExpires, htracked.absolute]
  · subst hsplit
    rw [trace_append, List.forall_mem_append] at hbefore
    obtain ⟨hfit', hlater⟩ := List.forall_mem_cons.mp hbefore.2
    have hnone := (@validate_answer mode _ _ _ hfit').2 hfailed
    have habsent := absent_run hnone hcreate hlater
    obtain ⟨s, hs, -⟩ := hiff.mp hsome
    rw [run_append, run_cons] at hs
    cases hs.symm.trans habsent

/-- A session kept alive once, swept past by the collector, and then left idle. -/
def idleRun : List Call :=
  [.create "a" "ann" 100 true, .create "b" "ann" 101 false, .validate "a" 105, .gc 112,
    .validate "a" 115]

theorem idleRun_follows :
    Follows .panics 1000 10 (idleRun.take 4) "a" 115 ∧
      validation .panics 1000 10 (idleRun.take 2) "a" 105 =
        .validated (some ⟨"a", "ann", 100, 105, 1100, 115, true⟩) ∧
      validation .panics 1000 10 (idleRun.take 4) "a" 115 = .validated none := by
  have hordered : Ordered idleRun := by
    unfold Ordered
    decide
  exact ⟨sessions_follow_history idleRun hordered (by decide) _ _ _ (by decide), by decide,
    by decide⟩

end Validation

end Aldivine.Aegis.Lifetimes
