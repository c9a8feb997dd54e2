import Aldivine.Foundation.Checked
import Aldivine.Foundation.Graphs
import Aldivine.Foundation.Table

namespace Aldivine.Resources.Dependencies

open Foundation.Checked Foundation.DepthFirst Foundation.Machine Foundation.Table Relation

structure Dependency where
  name : String
  version : Option String
deriving DecidableEq

structure Manifest where
  name : String
  dependencies : List Dependency
deriving DecidableEq

abbrev Graph := AList (fun _ : String ↦ List String)

/-- The order in which the keys of a `HashMap` come, each of them once. -/
structure Iteration where
  keys : Graph → List String
  perm : ∀ graph, (keys graph).Perm graph.keys

def Iteration.stored : Iteration := ⟨AList.keys, fun _ ↦ .refl _⟩

section Resolution

variable (iteration : Iteration) (manifests : List Manifest)

def byName : AList (fun _ : String ↦ Manifest) :=
  manifests.foldl (fun table m ↦ table.insert m.name m) ∅

/-- `graph.entry().or_default()`. -/
def enlist (graph : Graph) (m : Manifest) : Graph :=
  if (graph.lookup m.name).isSome then graph else graph.insert m.name []

def addDependency (m : Manifest) (graph : Graph) (dep : Dependency) : Outcome String Graph :=
  if ((byName manifests).lookup dep.name).isNone then
    .err ("resource '" ++ m.name ++ "' missing dependency '" ++ dep.name ++ "'")
  else
    match graph.lookup m.name with
    | some edges => .ok (graph.insert m.name (edges ++ [dep.name]))
    | none => .panic

def addEdges (graph : Graph) (m : Manifest) : Outcome String Graph :=
  m.dependencies.foldlM (addDependency manifests m) graph

def buildGraph : Outcome String Graph :=
  manifests.foldlM (addEdges manifests) (manifests.foldl enlist ∅)

def edgesOf (graph : Graph) (node : String) : List String := (graph.lookup node).getD []

def detectCycle (graph : Graph) : Option (Except String Unit) :=
  (visitAll (edgesOf graph) graph.keys.length (iteration.keys graph) .start).map fun
    | .ok _ => .ok ()
    | .error stack => .error (String.intercalate " -> " stack)

def resolveDependencies : Option (Outcome String Graph) :=
  match buildGraph manifests with
  | .ok graph => (detectCycle iteration graph).map fun
    | .ok () => .ok graph
    | .error cycle => .err ("dependency cycle: " ++ cycle)
  | .err e => some (.err e)
  | .panic => some .panic

end Resolution

variable {manifests : List Manifest} {graph : Graph} {m : Manifest} {name : String}

section Graphs

def Declares (manifests : List Manifest) (a b : String) : Prop :=
  ∃ m ∈ manifests, m.name = a ∧ ∃ dep ∈ m.dependencies, dep.name = b

/-- The required dependencies of `m` where it is the manifest of `name`. -/
def declaredBy (name : String) (m : Manifest) : List String :=
  if name = m.name then m.dependencies.map Dependency.name else []

def declared (manifests : List Manifest) (name : String) : List String :=
  manifests.flatMap (declaredBy name)

theorem mem_declared {a b : String} : b ∈ declared manifests a ↔ Declares manifests a b := by
  unfold declared Declares
  rw [List.mem_flatMap]
  refine exists_congr fun m ↦ and_congr_right fun _ ↦ ?_
  unfold declaredBy
  split
  · simp [*]
  · rename_i hne
    exact iff_of_false List.not_mem_nil fun h ↦ hne h.1.symm

theorem lookup_byName :
    ((byName manifests).lookup name).isNone ↔ name ∉ manifests.map Manifest.name := by
  unfold byName
  induction manifests using List.reverseRecOn with
  | nil => simp
  | append_singleton manifests m ih =>
    rw [List.foldl_append, List.foldl_cons, List.foldl_nil, lookup_insert_ite, List.map_append,
      List.map_singleton, List.mem_append, List.mem_singleton]
    split
    · simp [*]
    · rw [ih]
      simp [*]

theorem lookup_enlist : (enlist graph m).lookup name =
    if name = m.name then some ((graph.lookup name).getD []) else graph.lookup name := by
  unfold enlist
  split
  · rename_i hsome
    split
    · rename_i heq
      obtain ⟨edges, hedges⟩ := Option.isSome_iff_exists.mp hsome
      rw [heq, hedges]
      rfl
    · rfl
  · rename_i hnone
    rw [lookup_insert_ite]
    split
    · rename_i heq
      rw [heq, Option.not_isSome_iff_eq_none.mp hnone]
      rfl
    · rfl

def Filled (manifests : List Manifest) (edges : String → List String) (graph : Graph) : Prop :=
  ∀ name, graph.lookup name =
    if name ∈ manifests.map Manifest.name then some (edges name) else none

theorem filled_enlist (manifests : List Manifest) :
    Filled manifests (fun _ ↦ []) (manifests.foldl enlist ∅) := by
  intro name
  induction manifests using List.reverseRecOn with
  | nil => rfl
  | append_singleton manifests m ih =>
    rw [List.foldl_append, List.foldl_cons, List.foldl_nil, lookup_enlist, ih]
    simp only [List.map_append, List.map_singleton, List.mem_append, List.mem_singleton]
    by_cases heq : name = m.name
    · rw [if_pos heq, if_pos (show name ∈ manifests.map Manifest.name ∨ name = m.name from .inr heq)]
      split
      · rfl
      · rfl
    · simp only [heq, or_false, if_false]

/-- What a part of the construction comes to: the edges are added where `known` holds. -/
def Built (manifests : List Manifest) (known : Prop) (edges : String → List String) :
    Outcome String Graph → Prop
  | .ok graph => known ∧ Filled manifests edges graph
  | .err _ => ¬known
  | .panic => False

theorem foldlM_built {ι : Type} {f : Graph → ι → Outcome String Graph} {known : ι → Prop}
    {adds : ι → String → List String} {l : List ι} {edges : String → List String}
    (hstep : ∀ i ∈ l, ∀ graph edges, Filled manifests edges graph →
      Built manifests (known i) (fun n ↦ edges n ++ adds i n) (f graph i))
    (hgraph : Filled manifests edges graph) :
    Built manifests (∀ i ∈ l, known i) (fun n ↦ edges n ++ l.flatMap (adds · n))
      (l.foldlM f graph) := by
  induction l generalizing graph edges with
  | nil =>
    refine ⟨nofun, ?_⟩
    simpa using hgraph
  | cons i l ih =>
    obtain ⟨hfirst, hrest⟩ := List.forall_mem_cons.mp hstep
    have hone := hfirst graph edges hgraph
    rw [List.foldlM_cons]
    cases hout : f graph i with
    | panic =>
      rw [hout] at hone
      exact hone.elim
    | err e =>
      rw [hout] at hone
      exact fun hall ↦ hone (hall i List.mem_cons_self)
    | ok graph' =>
      rw [hout] at hone
      have hmore := ih hrest hone.2
      rw [ok_bind]
      simp only [List.flatMap_cons, ← List.append_assoc]
      generalize l.foldlM f graph' = result at hmore ⊢
      cases result with
      | panic => exact hmore
      | err e => exact fun hall ↦ hmore fun j hj ↦ hall j (List.mem_cons_of_mem i hj)
      | ok graph'' => exact ⟨List.forall_mem_cons.mpr ⟨hone.1, hmore.1⟩, hmore.2⟩

theorem addDependency_built {edges : String → List String} (dep : Dependency)
    (hm : m.name ∈ manifests.map Manifest.name) (hgraph : Filled manifests edges graph) :
    Built manifests (dep.name ∈ manifests.map Manifest.name)
      (fun n ↦ edges n ++ if n = m.name then [dep.name] else [])
      (addDependency manifests m graph dep) := by
  unfold addDependency
  by_cases hdep : dep.name ∈ manifests.map Manifest.name
  · rw [if_neg (fun hnone ↦ lookup_byName.mp hnone hdep), hgraph m.name, if_pos hm]
    refine ⟨hdep, fun n ↦ ?_⟩
    rw [lookup_insert_ite, hgraph n]
    dsimp only
    by_cases heq : n = m.name
    · rw [if_pos heq, if_pos heq, heq, if_pos hm]
    · rw [if_neg heq, if_neg heq, List.append_nil]
  · rw [if_pos (lookup_byName.mpr hdep)]
    exact hdep

theorem buildGraph_built (manifests : List Manifest) :
    Built manifests (∀ m ∈ manifests, ∀ dep ∈ m.dependencies,
      dep.name ∈ manifests.map Manifest.name) (declared manifests) (buildGraph manifests) := by
  have hdeclared : declared manifests =
      fun n ↦ (fun _ ↦ []) n ++ manifests.flatMap (fun m ↦ declaredBy n m) := rfl
  rw [hdeclared]
  refine foldlM_built (fun m hm graph edges hgraph ↦ ?_) (filled_enlist manifests)
  have hby : (fun n ↦ edges n ++ declaredBy n m) = fun n ↦ edges n ++
      m.dependencies.flatMap (fun dep ↦ if n = m.name then [dep.name] else []) := by
    funext n
    unfold declaredBy
    split
    · rw [List.map_eq_flatMap]
    · simp
  rw [hby]
  refine foldlM_built (fun dep _ graph edges hgraph ↦ ?_) hgraph
  exact addDependency_built dep (List.mem_map_of_mem hm) hgraph

end Graphs

section Cycles

variable {iteration : Iteration} {edges : String → List String}

theorem edge_iff (hgraph : Filled manifests (declared manifests) graph) {a b : String} :
    Edge (edgesOf graph) a b ↔ Declares manifests a b := by
  rw [← mem_declared, Edge, edgesOf, hgraph a]
  split
  · rfl
  · rename_i hnone
    refine iff_of_false List.not_mem_nil fun h ↦ hnone ?_
    obtain ⟨m, hm, rfl, -⟩ := mem_declared.mp h
    exact List.mem_map_of_mem hm

theorem mem_keys_iff (hgraph : Filled manifests edges graph) :
    name ∈ graph.keys ↔ name ∈ manifests.map Manifest.name := by
  rw [← AList.mem_keys, ← AList.lookup_isSome, hgraph name]
  split
  · exact iff_of_true rfl ‹_›
  · exact iff_of_false nofun ‹_›

/-- The search comes back, and finds a cycle exactly where there is one. -/
theorem detectCycle_iff (iteration : Iteration)
    (hgraph : Filled manifests (declared manifests) graph)
    (hknown : ∀ a b, Declares manifests a b → b ∈ manifests.map Manifest.name) :
    ∃ result, detectCycle iteration graph = some result ∧
      (result = .ok () ↔ ∀ a, ¬TransGen (Declares manifests) a a) := by
  have hmem (n : String) : n ∈ graph.keys.toFinset ↔ n ∈ iteration.keys graph := by
    rw [List.mem_toFinset]
    exact (iteration.perm graph).mem_iff.symm
  have hclosed : ∀ n ∈ graph.keys.toFinset, ∀ m ∈ edgesOf graph n, m ∈ graph.keys.toFinset := by
    intro n _ m hm
    rw [List.mem_toFinset, mem_keys_iff hgraph]
    exact hknown n m ((edge_iff hgraph).mp hm)
  have hedges : Edge (edgesOf graph) = Declares manifests := by
    funext a b
    exact propext (edge_iff hgraph)
  obtain ⟨result, hresult, hiff⟩ := visitAll_ok_iff hclosed hmem (List.toFinset_card_le graph.keys)
  rw [hedges] at hiff
  have hall : (∀ n ∈ graph.keys.toFinset, ¬TransGen (Declares manifests) n n) ↔
      ∀ a, ¬TransGen (Declares manifests) a a := by
    refine ⟨fun h a hcycle ↦ ?_, fun h n _ ↦ h n⟩
    obtain ⟨b, ⟨m, hm, rfl, -⟩, -⟩ := TransGen.head'_iff.mp hcycle
    refine h _ ?_ hcycle
    rw [List.mem_toFinset, mem_keys_iff hgraph]
    exact List.mem_map_of_mem hm
  rw [hall] at hiff
  unfold detectCycle
  rw [hresult]
  cases result with
  | error stack =>
    refine ⟨_, rfl, iff_of_false nofun fun h ↦ ?_⟩
    obtain ⟨s, hs⟩ := hiff.mpr h
    cases hs
  | ok s => exact ⟨_, rfl, iff_of_true rfl (hiff.mp ⟨s, rfl⟩)⟩

/-- The graph is that of the manifests: a node for each name, an edge for each dependency. -/
structure Resolved (manifests : List Manifest) (graph : Graph) : Prop where
  nodes : ∀ name, (graph.lookup name).isSome ↔ name ∈ manifests.map Manifest.name
  lists : ∀ name, ∀ deps ∈ graph.lookup name, deps = declared manifests name
  edges : ∀ a b, (∃ deps ∈ graph.lookup a, b ∈ deps) ↔ Declares manifests a b

theorem resolved_of_filled (hgraph : Filled manifests (declared manifests) graph) :
    Resolved manifests graph := by
  have hlists : ∀ name, ∀ deps ∈ graph.lookup name, deps = declared manifests name := by
    intro name deps hdeps
    rw [Option.mem_def, hgraph name] at hdeps
    split at hdeps
    · exact (Option.some.inj hdeps).symm
    · cases hdeps
  refine ⟨fun name ↦ ?_, hlists, fun a b ↦ ?_⟩
  · rw [AList.lookup_isSome, AList.mem_keys, mem_keys_iff hgraph]
  · rw [← edge_iff hgraph, Edge, edgesOf]
    cases hdeps : graph.lookup a with
    | none => exact iff_of_false (by rintro ⟨_, ⟨⟩, -⟩) List.not_mem_nil
    | some deps => simp

/-- In whatever order the nodes come: the call comes back, and with a graph exactly where every
required dependency is there and none leads back to itself. -/
theorem resolveDependencies_iff (iteration : Iteration) (manifests : List Manifest) :
    ∃ result, resolveDependencies iteration manifests = some result ∧ result ≠ .panic ∧
      ((∃ graph, result = .ok graph) ↔
        (∀ a b, Declares manifests a b → b ∈ manifests.map Manifest.name) ∧
          ∀ a, ¬TransGen (Declares manifests) a a) ∧
      ∀ graph, result = .ok graph → Resolved manifests graph := by
  have hknown : (∀ m ∈ manifests, ∀ dep ∈ m.dependencies, dep.name ∈ manifests.map Manifest.name) ↔
      ∀ a b, Declares manifests a b → b ∈ manifests.map Manifest.name := by
    constructor
    · rintro h _ _ ⟨m, hm, rfl, dep, hdep, rfl⟩
      exact h m hm dep hdep
    · intro h m hm dep hdep
      exact h _ _ ⟨m, hm, rfl, dep, hdep, rfl⟩
  have hbuilt := buildGraph_built manifests
  unfold resolveDependencies
  generalize buildGraph manifests = built at hbuilt ⊢
  cases built with
  | panic => exact hbuilt.elim
  | err e =>
    exact ⟨_, rfl, nofun, iff_of_false nofun fun h ↦ hbuilt (hknown.mpr h.1), nofun⟩
  | ok graph =>
    obtain ⟨hpresent, hgraph⟩ := hbuilt
    have hpresent := hknown.mp hpresent
    obtain ⟨result, hresult, hiff⟩ := detectCycle_iff iteration hgraph hpresent
    simp only [hresult, Option.map_some]
    cases result with
    | error cycle =>
      refine ⟨_, rfl, nofun, iff_of_false nofun fun h ↦ ?_, nofun⟩
      cases hiff.mpr h.2
    | ok done =>
      refine ⟨_, rfl, nofun, iff_of_true ⟨graph, rfl⟩ ⟨hpresent, hiff.mp rfl⟩, ?_⟩
      rintro _ ⟨⟩
      exact resolved_of_filled hgraph

example : resolveDependencies .stored [⟨"a", [⟨"b", none⟩]⟩, ⟨"b", [⟨"a", none⟩]⟩] =
    some (.err "dependency cycle: b -> a") := rfl

end Cycles

end Aldivine.Resources.Dependencies
