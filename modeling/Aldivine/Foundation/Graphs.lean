import Mathlib.Data.Finset.Card
import Mathlib.Data.List.AList
import Mathlib.Data.List.Basic
import Mathlib.Data.List.Chain
import Mathlib.Logic.Relation
import Mathlib.Order.Preorder.Finite
import Aldivine.Foundation.Table

namespace Aldivine.Foundation.DepthFirst

open Relation Table

variable {α : Type} [DecidableEq α]

/-- The nodes that were visited, the finished ones with `true`, and the path to the present one. -/
structure Search (α : Type) where
  visited : AList (fun _ : α ↦ Bool)
  stack : List α

def Search.start : Search α := ⟨∅, []⟩

def Search.enter (s : Search α) (node : α) : Search α :=
  ⟨s.visited.insert node false, s.stack ++ [node]⟩

def Search.leave (s : Search α) (node : α) : Search α :=
  ⟨s.visited.insert node true, s.stack.dropLast⟩

/-- The loop over the nodes behind an edge; an edge to a node of the path ends the search. -/
def visitEach (visit : α → Search α → Option (Except (List α) (Search α))) :
    List α → Search α → Option (Except (List α) (Search α))
  | [], s => some (.ok s)
  | node :: nodes, s =>
    match s.visited.lookup node with
    | some true => visitEach visit nodes s
    | some false => some (.error s.stack)
    | none =>
      match visit node s with
      | some (.ok s) => visitEach visit nodes s
      | result => result

variable (next : α → List α)

/-- `none` means that the search did not come back within the depth. -/
def visit : ℕ → α → Search α → Option (Except (List α) (Search α))
  | 0, _, _ => none
  | depth + 1, node, s =>
    match visitEach (visit depth) (next node) (s.enter node) with
    | some (.ok s) => some (.ok (s.leave node))
    | result => result

/-- The search is started from every node that it has not come to before. -/
def visitAll (depth : ℕ) : List α → Search α → Option (Except (List α) (Search α))
  | [], s => some (.ok s)
  | node :: nodes, s =>
    if (s.visited.lookup node).isSome then visitAll depth nodes s
    else
      match visit next depth node s with
      | some (.ok s) => visitAll depth nodes s
      | result => result

def Edge (n m : α) : Prop := m ∈ next n

variable {next} {s s' : Search α} {node : α} {nodes : List α} {depth : ℕ}

section States

structure Consistent (next : α → List α) (s : Search α) : Prop where
  opened : ∀ n, s.visited.lookup n = some false ↔ n ∈ s.stack
  chain : s.stack.IsChain (Edge next)
  closed : ∀ n, s.visited.lookup n = some true → ∀ m ∈ next n, s.visited.lookup m = some true
  acyclic : ∀ n, s.visited.lookup n = some true → ¬TransGen (Edge next) n n

structure Extends (s s' : Search α) : Prop where
  stack : s'.stack = s.stack
  finished : ∀ n, s.visited.lookup n = some true → s'.visited.lookup n = some true

theorem extends_refl (s : Search α) : Extends s s := ⟨rfl, fun _ h ↦ h⟩

theorem Extends.trans {s'' : Search α} (h : Extends s s') (h' : Extends s' s'') : Extends s s'' :=
  ⟨h'.stack.trans h.stack, fun n hn ↦ h'.finished n (h.finished n hn)⟩

theorem consistent_start : Consistent next (.start : Search α) where
  opened _ := iff_of_false nofun List.not_mem_nil
  chain := .nil
  closed := nofun
  acyclic := nofun

theorem Consistent.reach (h : Consistent next s) {n m : α}
    (hn : s.visited.lookup n = some true) (hreach : ReflTransGen (Edge next) n m) :
    s.visited.lookup m = some true := by
  induction hreach with
  | refl => exact hn
  | tail _ hedge ih => exact h.closed _ ih _ hedge

omit [DecidableEq α] in
theorem reach_last {R : α → α → Prop} {path : List α} {n last : α}
    (hchain : (path ++ [last]).IsChain R) (hn : n ∈ path ++ [last]) : ReflTransGen R n last := by
  have hpairs : (path ++ [last]).Pairwise (ReflTransGen R) :=
    (hchain.imp fun _ _ ↦ ReflTransGen.single).pairwise
  rcases List.mem_append.mp hn with hn | hn
  · exact (List.pairwise_append.mp hpairs).2.2 n hn last (List.mem_singleton_self last)
  · obtain rfl := List.mem_singleton.mp hn
    exact .refl

theorem consistent_enter (h : Consistent next s) (hnew : s.visited.lookup node = none)
    (hchain : (s.stack ++ [node]).IsChain (Edge next)) : Consistent next (s.enter node) := by
  have hlookup (n : α) : (s.enter node).visited.lookup n =
      if n = node then some false else s.visited.lookup n := lookup_insert_ite n false
  have hold {n : α} (hn : (s.enter node).visited.lookup n = some true) :
      s.visited.lookup n = some true := by
    rw [hlookup] at hn
    split at hn
    · cases hn
    · exact hn
  refine ⟨fun n ↦ ?_, hchain, fun n hn m hm ↦ ?_, fun n hn ↦ h.acyclic n (hold hn)⟩
  · rw [hlookup, Search.enter, List.mem_append, List.mem_singleton, ← h.opened]
    split
    · simp [*]
    · simp [*]
  · have hm := h.closed n (hold hn) m hm
    rw [hlookup, if_neg, hm]
    rintro rfl
    cases hnew.symm.trans hm

theorem consistent_leave (h : Consistent next s') (hstack : s'.stack = s.stack ++ [node])
    (hnew : node ∉ s.stack) (hnext : ∀ m ∈ next node, s'.visited.lookup m = some true) :
    Consistent next (s'.leave node) := by
  have hlookup (n : α) : (s'.leave node).visited.lookup n =
      if n = node then some true else s'.visited.lookup n := lookup_insert_ite n true
  have hpath : (s'.leave node).stack = s.stack := by
    rw [Search.leave, hstack, List.dropLast_concat]
  have hopen : s'.visited.lookup node = some false := by
    rw [h.opened, hstack]
    exact List.mem_append_right _ (List.mem_singleton_self node)
  refine ⟨fun n ↦ ?_, ?_, fun n hn m hm ↦ ?_, fun n hn ↦ ?_⟩
  · rw [hlookup, hpath]
    split
    · rename_i heq
      exact iff_of_false nofun (heq ▸ hnew)
    · rename_i hne
      rw [h.opened, hstack, List.mem_append, List.mem_singleton, or_iff_left hne]
  · rw [hpath]
    have hchain := h.chain
    rw [hstack] at hchain
    exact hchain.left_of_append
  · rw [hlookup] at hn ⊢
    split
    · rfl
    · split at hn
      · rename_i heq
        exact hnext m (heq ▸ hm)
      · exact h.closed n hn m hm
  · rw [hlookup] at hn
    split at hn
    · rename_i heq
      subst heq
      intro hcycle
      obtain ⟨m, hedge, hreach⟩ := TransGen.head'_iff.mp hcycle
      cases hopen.symm.trans (h.reach (hnext m hedge) hreach)
    · exact h.acyclic n hn

end States

section Specification

/-- What a search that starts in `s` and goes through `nodes` comes to. -/
def Explored (next : α → List α) (graph : Finset α) (nodes : List α) (s : Search α) :
    Option (Except (List α) (Search α)) → Prop
  | none => False
  | some (.error _) => ∃ n ∈ graph, TransGen (Edge next) n n
  | some (.ok s') => Consistent next s' ∧ Extends s s' ∧
      ∀ n ∈ nodes, s'.visited.lookup n = some true

def unvisited (graph : Finset α) (s : Search α) : Finset α :=
  graph.filter (fun n ↦ s.visited.lookup n = none)

variable {graph : Finset α}

theorem unvisited_enter (hnew : s.visited.lookup node = none) (hmem : node ∈ graph) :
    (unvisited graph (s.enter node)).card < (unvisited graph s).card := by
  refine Finset.card_lt_card (Finset.ssubset_iff_of_subset ?_ |>.mpr ⟨node, ?_, ?_⟩)
  · intro n hn
    obtain ⟨hn, hnone⟩ := Finset.mem_filter.mp hn
    rw [Search.enter, lookup_insert_ite] at hnone
    split at hnone
    · cases hnone
    · exact Finset.mem_filter.mpr ⟨hn, hnone⟩
  · exact Finset.mem_filter.mpr ⟨hmem, hnew⟩
  · intro hn
    have hnone := (Finset.mem_filter.mp hn).2
    rw [Search.enter, AList.lookup_insert] at hnone
    cases hnone

theorem unvisited_extends (hs : Consistent next s) (hs' : Consistent next s') (h : Extends s s') :
    (unvisited graph s').card ≤ (unvisited graph s).card := by
  refine Finset.card_le_card fun n hn ↦ ?_
  obtain ⟨hn, hnone⟩ := Finset.mem_filter.mp hn
  refine Finset.mem_filter.mpr ⟨hn, ?_⟩
  cases hlookup : s.visited.lookup n with
  | none => rfl
  | some b =>
    cases b with
    | true => cases hnone.symm.trans (h.finished n hlookup)
    | false =>
      have hopen := (hs'.opened n).mpr (h.stack ▸ (hs.opened n).mp hlookup)
      cases hnone.symm.trans hopen

/-- What the search from a single node has to come to, where there are few enough nodes left. -/
def Visits (next : α → List α) (graph : Finset α) (depth : ℕ)
    (visit : α → Search α → Option (Except (List α) (Search α))) : Prop :=
  ∀ node s, Consistent next s → s.visited.lookup node = none →
    (s.stack ++ [node]).IsChain (Edge next) → node ∈ graph →
      (unvisited graph s).card ≤ depth → Explored next graph [node] s (visit node s)

theorem visitEach_explored {visit : α → Search α → Option (Except (List α) (Search α))}
    {path : List α} (hvisit : Visits next graph depth visit) (hs : Consistent next s)
    (hstack : s.stack = path ++ [node]) (hnodes : ∀ m ∈ nodes, Edge next node m)
    (hmem : ∀ m ∈ nodes, m ∈ graph) (hdepth : (unvisited graph s).card ≤ depth) :
    Explored next graph nodes s (visitEach visit nodes s) := by
  induction nodes generalizing s with
  | nil => exact ⟨hs, extends_refl s, nofun⟩
  | cons m nodes ih =>
    obtain ⟨hedge, hedges⟩ := List.forall_mem_cons.mp hnodes
    obtain ⟨hm, hmem⟩ := List.forall_mem_cons.mp hmem
    have hagain {s' : Search α} (hs' : Consistent next s') (hext : Extends s s')
        (hdone : s'.visited.lookup m = some true) :
        Explored next graph (m :: nodes) s (visitEach visit nodes s') := by
      have hrest := ih hs' (hext.stack.trans hstack) hedges hmem
        ((unvisited_extends hs hs' hext).trans hdepth)
      generalize visitEach visit nodes s' = result at hrest ⊢
      match result, hrest with
      | some (.error _), hcycle => exact hcycle
      | some (.ok s''), ⟨hs'', hext', hall⟩ =>
        exact ⟨hs'', hext.trans hext', List.forall_mem_cons.mpr ⟨hext'.finished m hdone, hall⟩⟩
    have hlast : ∀ n ∈ s.stack, ReflTransGen (Edge next) n node := by
      intro n hn
      have hchain := hs.chain
      rw [hstack] at hchain hn
      exact reach_last hchain hn
    have hchain : (s.stack ++ [m]).IsChain (Edge next) := by
      rw [hstack]
      have hpath := hs.chain
      rw [hstack] at hpath
      exact hpath.append (List.isChain_singleton m) (by simpa using hedge)
    unfold visitEach
    cases hlookup : s.visited.lookup m with
    | some finished =>
      cases finished with
      | true => exact hagain hs (extends_refl s) hlookup
      | false =>
        -- the edge closes a way from `m` to the end of the path
        exact ⟨m, hm, TransGen.tail' (hlast m ((hs.opened m).mp hlookup)) hedge⟩
    | none =>
      have hsub := hvisit m s hs hlookup hchain hm hdepth
      dsimp only
      generalize visit m s = result at hsub ⊢
      match result, hsub with
      | some (.error _), hcycle => exact hcycle
      | some (.ok s'), ⟨hs', hext, hdone⟩ => exact hagain hs' hext (hdone m List.mem_cons_self)

variable (hclosed : ∀ n ∈ graph, ∀ m ∈ next n, m ∈ graph)

include hclosed

theorem visit_explored (depth : ℕ) : Visits next graph depth (visit next depth) := by
  induction depth with
  | zero =>
    intro node s _ hnew _ hmem hdepth
    have hpos : 0 < (unvisited graph s).card :=
      Finset.card_pos.mpr ⟨node, Finset.mem_filter.mpr ⟨hmem, hnew⟩⟩
    omega
  | succ depth ih =>
    intro node s hs hnew hchain hmem hdepth
    have henter := consistent_enter hs hnew hchain
    have hfewer := (unvisited_enter hnew hmem).trans_le hdepth
    have hloop := visitEach_explored ih henter rfl (fun _ h ↦ h) (hclosed node hmem)
      (Nat.lt_succ_iff.mp hfewer)
    unfold visit
    generalize visitEach (visit next depth) (next node) (s.enter node) = result at hloop ⊢
    match result, hloop with
    | some (.error _), hcycle => exact hcycle
    | some (.ok s'), ⟨hs', hext, hall⟩ =>
      have hout : node ∉ s.stack := by
        rw [← hs.opened, hnew]
        exact nofun
      refine ⟨consistent_leave hs' hext.stack hout hall, ⟨?_, fun n hn ↦ ?_⟩, fun n hn ↦ ?_⟩
      · rw [Search.leave, hext.stack]
        exact List.dropLast_concat
      · rw [Search.leave, lookup_insert_ite]
        split
        · rfl
        · rename_i hne
          refine hext.finished n ?_
          rw [Search.enter, lookup_insert_ite, if_neg hne]
          exact hn
      · obtain rfl := List.mem_singleton.mp hn
        exact AList.lookup_insert _

theorem visitAll_explored (hs : Consistent next s) (hstack : s.stack = [])
    (hmem : ∀ n ∈ nodes, n ∈ graph) (hdepth : graph.card ≤ depth) :
    Explored next graph nodes s (visitAll next depth nodes s) := by
  induction nodes generalizing s with
  | nil => exact ⟨hs, extends_refl s, nofun⟩
  | cons node nodes ih =>
    obtain ⟨hnode, hmem⟩ := List.forall_mem_cons.mp hmem
    have hagain {s' : Search α} (hs' : Consistent next s') (hext : Extends s s')
        (hdone : s'.visited.lookup node = some true) :
        Explored next graph (node :: nodes) s (visitAll next depth nodes s') := by
      have hrest := ih hs' (hext.stack.trans hstack) hmem
      generalize visitAll next depth nodes s' = result at hrest ⊢
      match result, hrest with
      | some (.error _), hcycle => exact hcycle
      | some (.ok s''), ⟨hs'', hext', hall⟩ =>
        exact ⟨hs'', hext.trans hext', List.forall_mem_cons.mpr ⟨hext'.finished node hdone, hall⟩⟩
    unfold visitAll
    cases hlookup : s.visited.lookup node with
    | some finished =>
      have hdone : finished = true := by
        cases finished with
        | true => rfl
        | false =>
          have hopen := (hs.opened node).mp hlookup
          rw [hstack] at hopen
          cases hopen
      exact hagain hs (extends_refl s) (hdone ▸ hlookup)
    | none =>
      have hfew : (unvisited graph s).card ≤ depth :=
        (Finset.card_le_card (Finset.filter_subset _ _)).trans hdepth
      have hchain : (s.stack ++ [node]).IsChain (Edge next) := by
        rw [hstack]
        exact List.isChain_singleton node
      have hsub := visit_explored hclosed depth node s hs hlookup hchain hnode hfew
      dsimp only [Option.isSome_none, Bool.false_eq_true, if_false]
      generalize visit next depth node s = result at hsub ⊢
      match result, hsub with
      | some (.error _), hcycle => exact hcycle
      | some (.ok s'), ⟨hs', hext, hdone⟩ => exact hagain hs' hext (hdone node List.mem_cons_self)

/-- Started from every node of a graph, the search fails exactly where there is a cycle. -/
theorem visitAll_ok_iff (hgraph : ∀ n, n ∈ graph ↔ n ∈ nodes) (hdepth : graph.card ≤ depth) :
    ∃ result, visitAll next depth nodes .start = some result ∧
      ((∃ s, result = .ok s) ↔ ∀ n ∈ graph, ¬TransGen (Edge next) n n) := by
  have hstart : Consistent next .start := consistent_start
  have h := visitAll_explored hclosed hstart rfl (fun n hn ↦ (hgraph n).mpr hn) hdepth
  generalize visitAll next depth nodes .start = result at h ⊢
  match result, h with
  | some (.error _), ⟨n, hn, hcycle⟩ =>
    exact ⟨_, rfl, iff_of_false nofun fun hacyclic ↦ hacyclic n hn hcycle⟩
  | some (.ok s), ⟨hs, _, hall⟩ =>
    exact ⟨_, rfl, iff_of_true ⟨s, rfl⟩ fun n hn ↦ hs.acyclic n (hall n ((hgraph n).mp hn))⟩

end Specification

end Aldivine.Foundation.DepthFirst

namespace Aldivine.Foundation.Topological

open Relation

variable {α : Type} {R : α → α → Prop} {known first second l : List α} {n m : α}

/-- Each element of the list comes after all that it is related to, which may also be `known`. -/
def Follows (R : α → α → Prop) : List α → List α → Prop
  | _, [] => True
  | known, n :: l => (∀ m, R n m → m ∈ known) ∧ Follows R (known ++ [n]) l

theorem follows_append :
    Follows R known (first ++ second) ↔ Follows R known first ∧ Follows R (known ++ first) second := by
  induction first generalizing known with
  | nil => simp [Follows]
  | cons n first ih =>
    rw [List.cons_append, Follows, Follows, ih, and_assoc, List.append_assoc]
    rfl

theorem follows_singleton : Follows R known [n] ↔ ∀ m, R n m → m ∈ known :=
  and_iff_left trivial

theorem Follows.mem_before (h : Follows R known (first ++ n :: second)) (hR : R n m) :
    m ∈ known ++ first := by
  obtain ⟨-, hn, -⟩ := follows_append.mp h
  exact hn m hR

theorem Follows.reach_before (h : Follows R [] l) (hreach : TransGen R n m)
    (hl : l = first ++ n :: second) : m ∈ first := by
  induction hreach using TransGen.head_induction_on generalizing first second with
  | single hR =>
    subst hl
    exact h.mem_before hR
  | head hR _ ih =>
    subst hl
    obtain ⟨a, b, rfl⟩ := List.append_of_mem (h.mem_before hR)
    have hm := ih (List.append_assoc a _ _)
    exact List.mem_append_left _ hm

theorem Follows.closed (h : Follows R [] l) (hn : n ∈ l) (hreach : ReflTransGen R n m) :
    m ∈ l := by
  obtain ⟨first, second, rfl⟩ := List.append_of_mem hn
  rcases reflTransGen_iff_eq_or_transGen.mp hreach with rfl | hreach
  · exact hn
  · exact List.mem_append_left _ (h.reach_before hreach rfl)

/-- An order of distinct elements leaves no room for a cycle. -/
theorem Follows.acyclic (h : Follows R [] l) (hnodup : l.Nodup) (hn : n ∈ l) :
    ¬TransGen R n n := by
  obtain ⟨first, second, rfl⟩ := List.append_of_mem hn
  intro hcycle
  have hbefore := h.reach_before hcycle rfl
  have hdisjoint := (List.nodup_append.mp hnodup).2.2
  exact hdisjoint n hbefore n List.mem_cons_self rfl

end Aldivine.Foundation.Topological

namespace Aldivine.Foundation.Chains

open Relation

variable {α : Type} {R : α → α → Prop} {a b : α}

variable (R) in
def Ends (a : α) : Prop := ∃ c, ReflTransGen R a c ∧ ∀ b, ¬R c b

variable (R) in
/-- Steps from `a` lead to where others lead back to. -/
def Circles (a : α) : Prop := ∃ c, ReflTransGen R a c ∧ TransGen R c c

theorem Ends.induct {P : α → Prop} (hstop : ∀ c, (∀ b, ¬R c b) → P c)
    (hstep : ∀ a b, R a b → Ends R b → P b → P a) (h : Ends R a) : P a := by
  obtain ⟨c, hc, hstuck⟩ := h
  induction hc using ReflTransGen.head_induction_on with
  | refl => exact hstop c hstuck
  | head hab hbc ih => exact hstep _ _ hab ⟨c, hbc, hstuck⟩ ih

theorem ends_of_stuck (h : ∀ b, ¬R a b) : Ends R a := ⟨a, .refl, h⟩

theorem Ends.head (hab : R a b) (h : Ends R b) : Ends R a := by
  obtain ⟨c, hbc, hstuck⟩ := h
  exact ⟨c, .head hab hbc, hstuck⟩

theorem Circles.head (hab : R a b) (h : Circles R b) : Circles R a := by
  obtain ⟨c, hbc, hcycle⟩ := h
  exact ⟨c, .head hab hbc, hcycle⟩

/-- Where there is one way at most, whoever goes in circles from `a` does so from the next place. -/
theorem Circles.tail (hR : Relator.RightUnique R) (hab : R a b) (h : Circles R a) :
    Circles R b := by
  obtain ⟨c, hac, hcycle⟩ := h
  rcases ReflTransGen.cases_head hac with rfl | ⟨b', hab', hbc⟩
  · obtain ⟨b', hab', hba⟩ := TransGen.head'_iff.mp hcycle
    obtain rfl := hR hab hab'
    exact ⟨a, hba, hcycle⟩
  · obtain rfl := hR hab hab'
    exact ⟨c, hbc, hcycle⟩

theorem not_circles_of_stuck (h : ∀ b, ¬R a b) : ¬Circles R a := by
  intro hcircles
  obtain ⟨c, hac, hcycle⟩ := hcircles
  rcases ReflTransGen.cases_head hac with rfl | ⟨b, hab, -⟩
  · obtain ⟨b, hab, -⟩ := TransGen.head'_iff.mp hcycle
    exact h b hab
  · exact h b hab

theorem Ends.not_circles (hR : Relator.RightUnique R) (h : Ends R a) : ¬Circles R a := by
  apply Ends.induct (P := fun a ↦ ¬Circles R a) _ _ h
  · exact fun c hstuck ↦ not_circles_of_stuck hstuck
  · exact fun a b hab _ ih hcircles ↦ ih (hcircles.tail hR hab)

/-- With finitely many places to step from, a chain that does not end comes to one twice. -/
theorem circles_of_not_ends (hfin : {a | ∃ b, R a b}.Finite) (h : ¬Ends R a) : Circles R a := by
  have hnext : ∀ c : {c // ReflTransGen R a c}, ∃ d : {c // ReflTransGen R a c}, R c d := by
    intro c
    by_contra hnone
    refine h ⟨c, c.2, fun b hcb ↦ hnone ⟨⟨b, c.2.tail hcb⟩, hcb⟩⟩
  choose next hstep using hnext
  have hchain : ∀ n, R (next^[n] ⟨a, .refl⟩) (next^[n + 1] ⟨a, .refl⟩) := by
    intro n
    rw [Function.iterate_succ_apply']
    exact hstep _
  have hmem : ∀ n, (next^[n] ⟨a, .refl⟩ : α) ∈ {a | ∃ b, R a b} := fun n ↦ ⟨_, hchain n⟩
  obtain ⟨m, n, hlt, heq⟩ := Set.Finite.exists_lt_map_eq_of_forall_mem hmem hfin
  refine ⟨_, (next^[m] ⟨a, .refl⟩).2, ?_⟩
  have hforth : ∀ k, TransGen R (next^[m] ⟨a, .refl⟩) (next^[m + k + 1] ⟨a, .refl⟩) := by
    intro k
    induction k with
    | zero => exact .single (hchain m)
    | succ k ih => exact ih.tail (hchain (m + k + 1))
  have hback := hforth (n - m - 1)
  rwa [show m + (n - m - 1) + 1 = n by omega, ← heq] at hback

theorem ends_iff (hR : Relator.RightUnique R) (hfin : {a | ∃ b, R a b}.Finite) :
    Ends R a ↔ ¬Circles R a :=
  ⟨fun h ↦ h.not_circles hR, fun h ↦ by_contra (fun hnot ↦ h (circles_of_not_ends hfin hnot))⟩

end Aldivine.Foundation.Chains
