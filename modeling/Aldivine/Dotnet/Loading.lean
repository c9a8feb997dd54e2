import Aldivine.Dotnet.Plans
import Mathlib.Data.Finset.Card

namespace Aldivine.Dotnet.Loading

open Relation Foundation.Fallible Foundation.Table Foundation.Topological Image Plans

variable {set : AssemblySet} {trust : TrustList}

section Graph

def Keyed (set : AssemblySet) : Prop := ∀ name node, set.lookup name = some node → node.name = name

def references (set : AssemblySet) (name : String) : List AssemblyRef :=
  ((set.lookup name).map (·.image.references)).getD []

def Refers (set : AssemblySet) (a b : String) : Prop := ∃ r ∈ references set a, r.name = b

/-- The reference names an assembly of the set that is not older, and any token of it is trusted. -/
def Sound (set : AssemblySet) (trust : TrustList) (r : AssemblyRef) : Prop :=
  ∃ found, set.lookup r.name = some found ∧ versionTuple r.version ≤ versionTuple found.version ∧
    ∀ tok ∈ r.publicKeyToken, tok ∈ trust.tokens

/-- What is recorded for a reference: an upgrade exactly if the version strings differ. -/
def resolution (set : AssemblySet) (r : AssemblyRef) : Resolved :=
  let fv := ((set.lookup r.name).map Loaded.version).getD ""
  if fv = r.version then .ok fv r.publicKeyToken.isSome else .upgraded r.version fv

def edgesFrom (set : AssemblySet) («from» : String) (refs : List AssemblyRef) : List Edge :=
  refs.map (fun r ↦ («from», r.name, resolution set r))

def edgesOf (set : AssemblySet) (name : String) : List Edge :=
  edgesFrom set name (references set name)

/-- The edges as they are recorded, under the name that the assembly has itself. -/
def recorded (set : AssemblySet) (name : String) : List Edge :=
  edgesFrom set (((set.lookup name).map Loaded.name).getD "") (references set name)

structure Loadable (set : AssemblySet) (trust : TrustList) (root : String) : Prop where
  present : (set.lookup root).isSome
  sound : ∀ n, ReflTransGen (Refers set) root n → ∀ r ∈ references set n, Sound set trust r
  acyclic : ∀ n, ReflTransGen (Refers set) root n → ¬TransGen (Refers set) n n

structure Plans (set : AssemblySet) (root : String) (plan : LoadPlan) : Prop where
  reachable : ∀ n, n ∈ plan.order ↔ ReflTransGen (Refers set) root n
  nodup : plan.order.Nodup
  behind : ∀ first n second, plan.order = first ++ n :: second → ∀ m, Refers set n m → m ∈ first
  edges : plan.edges.Perm (plan.order.flatMap (edgesOf set))

theorem recorded_eq (hkeyed : Keyed set) {name : String} (h : (set.lookup name).isSome) :
    recorded set name = edgesOf set name := by
  obtain ⟨node, hnode⟩ := Option.isSome_iff_exists.mp h
  rw [recorded, edgesOf, hnode, Option.map_some, Option.getD_some, hkeyed name node hnode]

theorem references_eq {name : String} {node : Loaded} (h : set.lookup name = some node) :
    references set name = node.image.references := by
  rw [references, h]
  rfl

theorem checkToken_eq_ok {r : AssemblyRef} :
    checkToken trust r = .ok () ↔ ∀ tok ∈ r.publicKeyToken, tok ∈ trust.tokens := by
  unfold checkToken
  cases r.publicKeyToken with
  | none => exact iff_of_true rfl nofun
  | some tok => simp [refuse_eq_ok, TrustList.contains]

theorem checkRef_eq_ok {requester : String} {r : AssemblyRef} {resolved : Resolved} :
    checkRef set trust requester r = .ok resolved ↔
      Sound set trust r ∧ resolved = resolution set r := by
  unfold checkRef
  rw [bind_eq_ok]
  simp only [okOr_eq_ok, check_bind_eq_ok, refuse_eq_ok, checkToken_eq_ok, satisfies, decide_eq_true_eq,
    not_not]
  constructor
  · intro h
    obtain ⟨found, hfound, hversion, htokens, hresolved⟩ := h
    cases hresolved
    refine ⟨⟨found, hfound, hversion, htokens⟩, ?_⟩
    rw [resolution, hfound]
    rfl
  · intro h
    obtain ⟨⟨found, hfound, hversion, htokens⟩, rfl⟩ := h
    refine ⟨found, hfound, hversion, htokens, ?_⟩
    rw [resolution, hfound]
    rfl

end Graph

section Search

/-- What a stretch of the search from `source` adds: `new` assemblies are done, and besides their
references the edges hold `extra` ones. -/
structure Explored (set : AssemblySet) (trust : TrustList) (source : String) (extra : List Edge)
    (s s' : Search) (new : List String) : Prop where
  order : s'.order = s.order ++ new
  marks : ∀ n, s'.state.lookup n = if n ∈ new then some .done else s.state.lookup n
  fresh : ∀ n ∈ new, s.state.lookup n = none
  nodup : new.Nodup
  sound : ∀ n ∈ new, (set.lookup n).isSome ∧ ∀ r ∈ references set n, Sound set trust r
  follows : Follows (Refers set) s.order new
  reach : ∀ n ∈ new, ReflTransGen (Refers set) source n
  edges : s'.edges.Perm (s.edges ++ (extra ++ new.flatMap (recorded set)))

def Listed (s : Search) : Prop := ∀ n, s.state.lookup n = some .done ↔ n ∈ s.order

def Stacked (set : AssemblySet) (s : Search) (name : String) : Prop :=
  ∀ g, s.state.lookup g = some .inStack → TransGen (Refers set) g name

def Flawed (set : AssemblySet) (trust : TrustList) (name : String) : Prop :=
  set.lookup name = none ∨ ∃ n, ReflTransGen (Refers set) name n ∧
    ((∃ r ∈ references set n, ¬Sound set trust r) ∨ TransGen (Refers set) n n)

def unmarked (set : AssemblySet) (s : Search) : ℕ :=
  (set.keys.toFinset.filter (fun n ↦ s.state.lookup n = none)).card

variable {source : String} {extra more : List Edge} {s s' s'' : Search} {new later : List String}

theorem explored_refl (source : String) (s : Search) :
    Explored set trust source [] s s [] where
  order := (List.append_nil _).symm
  marks _ := rfl
  fresh := List.forall_mem_nil _
  nodup := List.nodup_nil
  sound := List.forall_mem_nil _
  follows := trivial
  reach := List.forall_mem_nil _
  edges := by simp

theorem Explored.trans (h : Explored set trust source extra s s' new)
    (h' : Explored set trust source more s' s'' later) :
    Explored set trust source (extra ++ more) s s'' (new ++ later) where
  order := by rw [h'.order, h.order, List.append_assoc]
  marks n := by
    rw [h'.marks, h.marks]
    by_cases hn : n ∈ new <;> by_cases hl : n ∈ later <;> simp [hn, hl]
  fresh := by
    rw [List.forall_mem_append]
    refine ⟨h.fresh, fun n hn ↦ ?_⟩
    have hnone := h'.fresh n hn
    rw [h.marks] at hnone
    split at hnone
    · cases hnone
    · exact hnone
  nodup := by
    refine List.nodup_append.mpr ⟨h.nodup, h'.nodup, fun a ha b hb heq ↦ ?_⟩
    have hnone := h'.fresh b hb
    rw [h.marks, if_pos (heq ▸ ha)] at hnone
    cases hnone
  sound := List.forall_mem_append.mpr ⟨h.sound, h'.sound⟩
  follows := by
    refine follows_append.mpr ⟨h.follows, ?_⟩
    rw [← h.order]
    exact h'.follows
  reach := List.forall_mem_append.mpr ⟨h.reach, h'.reach⟩
  edges := by
    refine h'.edges.trans ((h.edges.append_right _).trans ?_)
    rw [List.flatMap_append, List.perm_iff_count]
    intro e
    simp only [List.count_append]
    omega

theorem Explored.listed (h : Explored set trust source extra s s' new) (hs : Listed s) :
    Listed s' := by
  intro n
  rw [h.marks, h.order, List.mem_append, ← hs n]
  split
  · rename_i hn
    exact iff_of_true rfl (.inr hn)
  · rename_i hn
    exact (or_iff_left hn).symm

theorem Explored.stacked {name : String} (h : Explored set trust source extra s s' new)
    (hs : Stacked set s name) : Stacked set s' name := by
  intro g hg
  rw [h.marks] at hg
  split at hg
  · cases hg
  · exact hs g hg

theorem Explored.unmarked_le (h : Explored set trust source extra s s' new) :
    unmarked set s' ≤ unmarked set s := by
  apply Finset.card_le_card
  intro n hn
  obtain ⟨hmem, hn⟩ := Finset.mem_filter.mp hn
  rw [h.marks] at hn
  split at hn
  · cases hn
  · exact Finset.mem_filter.mpr ⟨hmem, hn⟩

theorem explored_edge (source : String) (s : Search) (e : Edge) :
    Explored set trust source [e] s { s with edges := s.edges ++ [e] } [] where
  order := (List.append_nil _).symm
  marks _ := rfl
  fresh := List.forall_mem_nil _
  nodup := List.nodup_nil
  sound := List.forall_mem_nil _
  follows := trivial
  reach := List.forall_mem_nil _
  edges := by simp

theorem Explored.above {name : String} (h : Explored set trust name extra s s' new)
    (hreach : ReflTransGen (Refers set) source name) : Explored set trust source extra s s' new :=
  { h with reach := fun n hn ↦ hreach.trans (h.reach n hn) }

variable {name : String}

theorem enter_listed (hs : Listed s) (hname : s.state.lookup name = none) :
    Listed (s.enter name) := by
  intro n
  rw [Search.enter, lookup_insert_ite, ← hs n]
  split
  · rename_i heq
    subst heq
    rw [hname]
    exact iff_of_false nofun nofun
  · rfl

theorem enter_unmarked (hname : s.state.lookup name = none) (hmem : (set.lookup name).isSome) :
    unmarked set (s.enter name) < unmarked set s := by
  apply Finset.card_lt_card
  refine Finset.ssubset_iff_subset_ne.mpr ⟨fun n hn ↦ ?_, fun heq ↦ ?_⟩
  · obtain ⟨hn, hnone⟩ := Finset.mem_filter.mp hn
    rw [Search.enter, lookup_insert_ite] at hnone
    split at hnone
    · cases hnone
    · exact Finset.mem_filter.mpr ⟨hn, hnone⟩
  · have hkey : name ∈ set.keys.toFinset :=
      List.mem_toFinset.mpr (AList.lookup_isSome.mp hmem)
    have hin : name ∈ set.keys.toFinset.filter (fun n ↦ s.state.lookup n = none) :=
      Finset.mem_filter.mpr ⟨hkey, hname⟩
    rw [← heq] at hin
    obtain ⟨-, hnone⟩ := Finset.mem_filter.mp hin
    rw [Search.enter, AList.lookup_insert] at hnone
    cases hnone

theorem Explored.leave (h : Explored set trust name (recorded set name) (s.enter name) s' new)
    (hname : s.state.lookup name = none) (hmem : (set.lookup name).isSome)
    (hdone : ∀ r ∈ references set name, r.name ∈ s'.order ∧ Sound set trust r) :
    Explored set trust name [] s (s'.leave name) (new ++ [name]) := by
  have hfresh : ∀ n ∈ new, n ≠ name ∧ s.state.lookup n = none := by
    intro n hn
    have hnone := h.fresh n hn
    rw [Search.enter, lookup_insert_ite] at hnone
    split at hnone
    · cases hnone
    · rename_i hne
      exact ⟨hne, hnone⟩
  refine ⟨?_, fun n ↦ ?_, ?_, ?_, ?_, ?_, ?_, ?_⟩
  · rw [Search.leave, h.order, List.append_assoc]
    rfl
  · rw [Search.leave, lookup_insert_ite, h.marks, Search.enter, lookup_insert_ite]
    by_cases hn : n = name <;> by_cases hnew : n ∈ new <;> simp [hn, hnew]
  · rw [List.forall_mem_append, List.forall_mem_singleton]
    exact ⟨fun n hn ↦ (hfresh n hn).2, hname⟩
  · refine List.nodup_append.mpr ⟨h.nodup, List.nodup_singleton _, fun a ha b hb ↦ ?_⟩
    rw [List.mem_singleton.mp hb]
    exact (hfresh a ha).1
  · rw [List.forall_mem_append, List.forall_mem_singleton]
    exact ⟨h.sound, hmem, fun r hr ↦ (hdone r hr).2⟩
  · refine follows_append.mpr ⟨h.follows, follows_singleton.mpr fun m hm ↦ ?_⟩
    obtain ⟨r, hr, rfl⟩ := hm
    have horder := (hdone r hr).1
    rwa [h.order] at horder
  · rw [List.forall_mem_append, List.forall_mem_singleton]
    exact ⟨h.reach, .refl⟩
  · refine h.edges.trans ?_
    rw [List.nil_append, List.flatMap_append, List.flatMap_singleton]
    exact List.perm_append_comm.append_left _

theorem Flawed.above {r : AssemblyRef} (h : Flawed set trust r.name)
    (hr : r ∈ references set name) (hsound : Sound set trust r) : Flawed set trust name := by
  rcases h with hnone | ⟨n, hreach, hflaw⟩
  · obtain ⟨found, hfound, -⟩ := hsound
    rw [hfound] at hnone
    cases hnone
  · exact .inr ⟨n, .head ⟨r, hr, rfl⟩ hreach, hflaw⟩

def Searched (set : AssemblySet) (trust : TrustList) (name : String) (s : Search) :
    Except ClrError Search → Prop
  | .ok s' => name ∈ s'.order ∧ ∃ new, Explored set trust name [] s s' new
  | .error _ => Flawed set trust name

def Followed (set : AssemblySet) (trust : TrustList) (name requester : String)
    (refs : List AssemblyRef) (s : Search) : Except ClrError Search → Prop
  | .ok s' => (∀ r ∈ refs, r.name ∈ s'.order ∧ Sound set trust r) ∧
      ∃ new, Explored set trust name (edgesFrom set requester refs) s s' new
  | .error _ => Flawed set trust name

theorem follow_spec {visit : String → Search → Option (Except ClrError Search)} {depth : ℕ}
    (hvisit : ∀ name s, Listed s → Stacked set s name → unmarked set s < depth →
      ∃ result, visit name s = some result ∧ Searched set trust name s result)
    (requester : String) {refs : List AssemblyRef}
    (hrefs : ∀ r ∈ refs, r ∈ references set name) (hlisted : Listed s)
    (hstacked : ∀ r ∈ references set name, Stacked set s r.name)
    (hdepth : unmarked set s < depth) :
    ∃ result, follow set trust visit requester refs s = some result ∧
      Followed set trust name requester refs s result := by
  induction refs generalizing s with
  | nil => exact ⟨_, rfl, List.forall_mem_nil _, [], explored_refl name s⟩
  | cons r refs ih =>
    obtain ⟨hr, hrefs⟩ := List.forall_mem_cons.mp hrefs
    rw [follow]
    cases hcheck : checkRef set trust requester r with
    | error e =>
      refine ⟨_, rfl, .inr ⟨name, .refl, .inl ⟨r, hr, fun hsound ↦ ?_⟩⟩⟩
      have hok : checkRef set trust requester r = _ := checkRef_eq_ok.mpr ⟨hsound, rfl⟩
      rw [hcheck] at hok
      cases hok
    | ok resolved =>
      obtain ⟨hsound, rfl⟩ := checkRef_eq_ok.mp hcheck
      have hedge := @explored_edge set trust name s (requester, r.name, resolution set r)
      obtain ⟨result, hresult, hsearched⟩ := hvisit r.name
        { s with edges := s.edges ++ [(requester, r.name, resolution set r)] } hlisted (hstacked r hr)
        hdepth
      simp only [hresult]
      cases result with
      | error e => exact ⟨_, rfl, hsearched.above hr hsound⟩
      | ok s' =>
        obtain ⟨hdone, new, hnew⟩ := hsearched
        have hbelow := hedge.trans (hnew.above (.single ⟨r, hr, rfl⟩))
        have hstacked' : ∀ r ∈ references set name, Stacked set s' r.name :=
          fun r hr ↦ hbelow.stacked (hstacked r hr)
        obtain ⟨result, hresult, hfollowed⟩ := ih hrefs (hbelow.listed hlisted) hstacked'
          (hbelow.unmarked_le.trans_lt hdepth)
        refine ⟨result, hresult, ?_⟩
        cases result with
        | error e => exact hfollowed
        | ok s'' =>
          obtain ⟨hall, later, hlater⟩ := hfollowed
          refine ⟨List.forall_mem_cons.mpr ⟨⟨?_, hsound⟩, hall⟩, _, hbelow.trans hlater⟩
          rw [hlater.order]
          exact List.mem_append_left _ hdone

theorem dfs_spec {depth : ℕ} (name : String) (s : Search)
    (hlisted : Listed s) (hstacked : Stacked set s name) (hdepth : unmarked set s < depth) :
    ∃ result, dfs set trust depth name s = some result ∧ Searched set trust name s result := by
  induction depth generalizing name s with
  | zero => exact absurd hdepth (Nat.not_lt_zero _)
  | succ depth ih =>
    rw [dfs]
    cases hname : s.state.lookup name with
    | some mark =>
      cases mark with
      | done => exact ⟨_, rfl, (hlisted name).mp hname, [], explored_refl name s⟩
      | inStack => exact ⟨_, rfl, .inr ⟨name, .refl, .inr (hstacked name hname)⟩⟩
    | none =>
      cases hnode : set.lookup name with
      | none => exact ⟨_, rfl, .inl hnode⟩
      | some node =>
        have hmem : (set.lookup name).isSome := by rw [hnode]; rfl
        have hbelow : ∀ r ∈ references set name, Stacked set (s.enter name) r.name := by
          intro r hr g hg
          rw [Search.enter, lookup_insert_ite] at hg
          split at hg
          · rename_i heq
            rw [heq]
            exact .single ⟨r, hr, rfl⟩
          · exact (hstacked g hg).tail ⟨r, hr, rfl⟩
        have hunmarked : unmarked set (s.enter name) < depth :=
          (enter_unmarked hname hmem).trans_le (Nat.le_of_lt_succ hdepth)
        obtain ⟨result, hresult, hfollowed⟩ := follow_spec (fun n s ↦ ih n s) node.name
          (fun r hr ↦ hr) (enter_listed hlisted hname) hbelow hunmarked
        rw [references_eq hnode] at hresult
        simp only [hresult]
        cases result with
        | error e => exact ⟨_, rfl, hfollowed⟩
        | ok s' =>
          obtain ⟨hdone, new, hnew⟩ := hfollowed
          have hedges : edgesFrom set node.name (references set name) = recorded set name := by
            rw [recorded, hnode]
            rfl
          rw [hedges] at hnew
          refine ⟨_, rfl, ?_, _, hnew.leave hname hmem hdone⟩
          exact List.mem_append_right _ (List.mem_singleton_self _)

end Search

section Plan

theorem not_loadable_of_flawed {root : String} (h : Flawed set trust root) :
    ¬Loadable set trust root := by
  intro hload
  rcases h with hnone | ⟨n, hreach, ⟨r, hr, hbad⟩ | hcycle⟩
  · have hpresent := hload.present
    rw [hnone] at hpresent
    cases hpresent
  · exact hbad (hload.sound n hreach r hr)
  · exact hload.acyclic n hreach hcycle

variable {root : String} {s : Search} {new : List String}

theorem mem_iff_reach (h : Explored set trust root [] ⟨∅, [], []⟩ s new) (hroot : root ∈ new)
    (n : String) : n ∈ new ↔ ReflTransGen (Refers set) root n :=
  ⟨h.reach n, fun hreach ↦ h.follows.closed hroot hreach⟩

theorem loadable_of_explored (h : Explored set trust root [] ⟨∅, [], []⟩ s new)
    (hroot : root ∈ new) : Loadable set trust root where
  present := (h.sound root hroot).1
  sound n hn := (h.sound n ((mem_iff_reach h hroot n).mpr hn)).2
  acyclic n hn := h.follows.acyclic h.nodup ((mem_iff_reach h hroot n).mpr hn)

theorem plans_of_explored (hkeyed : Keyed set) (h : Explored set trust root [] ⟨∅, [], []⟩ s new)
    (hroot : root ∈ new) : Plans set root ⟨s.order, s.edges⟩ := by
  have horder : s.order = new := h.order
  refine ⟨fun n ↦ ?_, ?_, fun first n second heq m hm ↦ ?_, ?_⟩
  · exact horder ▸ mem_iff_reach h hroot n
  · exact horder ▸ h.nodup
  · have hfollows : Follows (Refers set) [] (first ++ n :: second) := by
      rw [← show s.order = _ from heq, horder]
      exact h.follows
    exact hfollows.mem_before hm
  · have hedges : new.flatMap (recorded set) = new.flatMap (edgesOf set) :=
      List.flatMap_congr (fun n hn ↦ recorded_eq hkeyed (h.sound n hn).1)
    rw [horder, ← hedges]
    exact h.edges

theorem follow_mono {visit visit' : String → Search → Option (Except ClrError Search)}
    (hvisit : ∀ name s result, visit name s = some result → visit' name s = some result)
    {requester : String} {refs : List AssemblyRef} {s : Search} {result : Except ClrError Search}
    (h : follow set trust visit requester refs s = some result) :
    follow set trust visit' requester refs s = some result := by
  induction refs generalizing s with
  | nil => exact h
  | cons r refs ih =>
    rw [follow] at h ⊢
    split at h
    · exact h
    · split at h
      · rename_i s' hs
        simp only [hvisit _ _ _ hs]
        exact ih h
      · rename_i hnot
        simp only [hvisit _ _ _ h]
        cases result with
        | error e => rfl
        | ok s' => exact absurd h (hnot s')

/-- What a search comes back with does not depend on a depth that it does not reach. -/
theorem dfs_mono {depth depth' : ℕ} (hle : depth ≤ depth') (name : String) (s : Search)
    (result : Except ClrError Search) (h : dfs set trust depth name s = some result) :
    dfs set trust depth' name s = some result := by
  induction depth generalizing depth' name s result with
  | zero => cases h
  | succ depth ih =>
    obtain ⟨depth', rfl⟩ := Nat.exists_eq_add_of_le' (Nat.one_le_of_lt hle)
    have hfollow := @follow_mono set trust _ _ (ih (Nat.le_of_succ_le_succ hle))
    rw [dfs] at h ⊢
    split at h
    · exact h
    · exact h
    · split at h
      · exact h
      · split at h
        · rename_i s' hs
          simp only [hfollow hs]
          exact h
        · rename_i hnot
          simp only [hfollow h]
          cases result with
          | error e => rfl
          | ok s' => exact absurd h (hnot s')

/-- The search ends within a depth that the set bounds. -/
theorem search_spec (set : AssemblySet) (trust : TrustList) (root : String) :
    ∃ result, (∀ depth, set.keys.length < depth →
        dfs set trust depth root ⟨∅, [], []⟩ = some result) ∧
      Searched set trust root ⟨∅, [], []⟩ result := by
  have hunmarked : unmarked set ⟨∅, [], []⟩ < set.keys.length + 1 :=
    Nat.lt_succ_of_le ((Finset.card_filter_le _ _).trans (List.toFinset_card_le _))
  have hlisted : Listed ⟨∅, [], []⟩ := fun n ↦ iff_of_false nofun List.not_mem_nil
  obtain ⟨result, hresult, hsearched⟩ :=
    @dfs_spec set trust _ root ⟨∅, [], []⟩ hlisted nofun hunmarked
  exact ⟨result, fun depth hdepth ↦ dfs_mono hdepth _ _ _ hresult, hsearched⟩

/-- A set that is keyed by name has a plan exactly when it can be loaded, and the plan says what it
should. -/
theorem planLoad_correct (set : AssemblySet) (trust : TrustList) (root : String)
    (hkeyed : Keyed set) :
    ∃ result, (∀ depth, set.keys.length < depth → planLoad set trust depth root = some result) ∧
      ((∃ plan, result = .ok plan) ↔ Loadable set trust root) ∧
      ∀ plan, result = .ok plan → Plans set root plan := by
  obtain ⟨result, hresult, hsearched⟩ := search_spec set trust root
  refine ⟨result.map (fun s ↦ ⟨s.order, s.edges⟩), fun depth hdepth ↦ ?_, ?_⟩
  · rw [planLoad, hresult depth hdepth]
    rfl
  cases result with
  | error e => exact ⟨iff_of_false nofun (not_loadable_of_flawed hsearched), nofun⟩
  | ok s =>
    obtain ⟨hroot, new, hnew⟩ := hsearched
    rw [hnew.order, List.nil_append] at hroot
    refine ⟨iff_of_true ⟨_, rfl⟩ (loadable_of_explored hnew hroot), fun plan heq ↦ ?_⟩
    cases heq
    exact plans_of_explored hkeyed hnew hroot

end Plan

section Example

def assembly (name version : String) (token : Option String) (references : List AssemblyRef) :
    Loaded :=
  { path := ""
    image :=
      { runtimeVersion := "v4.0.30319"
        clrFlags := 1
        entryPointToken := 0
        moduleName := none
        mvid := none
        assembly := some ⟨name, version, none, 0, token, token.isSome⟩
        references
        tableRows := fun _ ↦ 0
        customAttributeTypes := []
        types := []
        pinvokes := [] } }

/-- A resource, the library that it asks for, which is newer, and the runtime below both. -/
def resourceSet : AssemblySet :=
  (((∅ : AssemblySet).insert "mystuff" (assembly "mystuff" "1.0.0.0" none
    [⟨"CitizenFX.Core", "1.0.0.0", none, some "de303ab16a3e581c", false⟩,
      ⟨"System.Runtime", "6.0.0.0", none, none, false⟩])).insert "CitizenFX.Core"
    (assembly "CitizenFX.Core" "2.0.0.0" (some "de303ab16a3e581c")
      [⟨"System.Runtime", "6.0.0.0", none, some "b03f5f7f11d50a3a", false⟩])).insert "System.Runtime"
    (assembly "System.Runtime" "6.0.0.0" (some "b03f5f7f11d50a3a") [])

def resourceTrust : TrustList := ⟨["de303ab16a3e581c", "b03f5f7f11d50a3a"]⟩

def resourcePlan : LoadPlan where
  order := ["System.Runtime", "CitizenFX.Core", "mystuff"]
  edges :=
    [("mystuff", "CitizenFX.Core", .upgraded "1.0.0.0" "2.0.0.0"),
      ("CitizenFX.Core", "System.Runtime", .ok "6.0.0.0" true),
      ("mystuff", "System.Runtime", .ok "6.0.0.0" false)]

theorem resource_planned :
    planLoad resourceSet resourceTrust 4 "mystuff" = some (.ok resourcePlan) ∧
      Loadable resourceSet resourceTrust "mystuff" := by
  have hkeyed : Keyed resourceSet := by
    intro name node h
    simp only [resourceSet, lookup_insert_ite] at h
    split_ifs at h <;> cases h <;> subst name <;> rfl
  have hplan : planLoad resourceSet resourceTrust 4 "mystuff" = some (.ok resourcePlan) := rfl
  obtain ⟨result, hresult, hload, -⟩ :=
    planLoad_correct resourceSet resourceTrust "mystuff" hkeyed
  have hrun := hresult 4 (by decide)
  rw [hplan] at hrun
  exact ⟨hplan, hload.mp ⟨_, (Option.some.inj hrun).symm⟩⟩

end Example

end Aldivine.Dotnet.Loading
