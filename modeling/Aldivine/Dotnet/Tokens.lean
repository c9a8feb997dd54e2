import Aldivine.Dotnet.Loading

namespace Aldivine.Dotnet.Tokens

open Foundation.Fallible Foundation.Table Image Plans Loading

/-- What the search sees of an assembly; the token that the assembly has itself is not part of it. -/
def sight (l : Loaded) : String × String × List AssemblyRef :=
  (l.name, l.version, l.image.references)

variable {set set' : AssemblySet} {trust : TrustList}

theorem checkRef_congr (h : ∀ name, (set'.lookup name).map sight = (set.lookup name).map sight)
    (requester : String) (r : AssemblyRef) :
    checkRef set' trust requester r = checkRef set trust requester r := by
  have hr := h r.name
  unfold checkRef
  cases hnew : set'.lookup r.name with
  | none =>
    rw [hnew, Option.map_none, eq_comm, Option.map_eq_none_iff] at hr
    rw [hr]
  | some found' =>
    rw [hnew, Option.map_some, eq_comm, Option.map_eq_some_iff] at hr
    obtain ⟨found, hfound, hsight⟩ := hr
    have hversion : found.version = found'.version := congrArg (·.2.1) hsight
    rw [hfound]
    change (do refuse _ _; _) = (do refuse _ _; _)
    rw [hversion]

theorem follow_congr (h : ∀ name, (set'.lookup name).map sight = (set.lookup name).map sight)
    (visit : String → Search → Option (Except ClrError Search)) (requester : String)
    (refs : List AssemblyRef) (s : Search) :
    follow set' trust visit requester refs s = follow set trust visit requester refs s := by
  induction refs generalizing s with
  | nil => rfl
  | cons r refs ih =>
    rw [follow, follow, checkRef_congr h]
    simp only [ih]

theorem dfs_congr (h : ∀ name, (set'.lookup name).map sight = (set.lookup name).map sight)
    (depth : ℕ) (name : String) (s : Search) :
    dfs set' trust depth name s = dfs set trust depth name s := by
  induction depth generalizing name s with
  | zero => rfl
  | succ depth ih =>
    have hvisit : dfs set' trust depth = dfs set trust depth := funext₂ ih
    have hname := h name
    rw [dfs, dfs, hvisit]
    cases hnew : set'.lookup name with
    | none =>
      rw [hnew, Option.map_none, eq_comm, Option.map_eq_none_iff] at hname
      rw [hname]
    | some node' =>
      rw [hnew, Option.map_some, eq_comm, Option.map_eq_some_iff] at hname
      obtain ⟨node, hnode, hsight⟩ := hname
      have hown : node.name = node'.name := congrArg (·.1) hsight
      have hrefs : node.image.references = node'.image.references := congrArg (·.2.2) hsight
      rw [hnode]
      simp only [hown, hrefs, follow_congr h]

/-- A plan binds the tokens that references carry to the trust list. Those that the assemblies have
themselves make no difference. -/
theorem references_trusted (set : AssemblySet) (trust : TrustList) (root : String) :
    (∀ depth plan, planLoad set trust depth root = some (.ok plan) →
      ∀ n ∈ plan.order, ∀ r ∈ references set n,
        r.name ∈ plan.order ∧ ∀ tok ∈ r.publicKeyToken, tok ∈ trust.tokens) ∧
    ∀ set' : AssemblySet, (∀ name, (set'.lookup name).map sight = (set.lookup name).map sight) →
      ∀ depth, planLoad set' trust depth root = planLoad set trust depth root := by
  constructor
  · intro depth plan hplan n hn r hr
    obtain ⟨result, hrun, hmap⟩ := Option.map_eq_some_iff.mp hplan
    obtain ⟨result', hsearch, hsearched⟩ := search_spec set trust root
    have hdeep := hsearch (max depth (set.keys.length + 1)) (by omega)
    rw [dfs_mono (le_max_left _ _) _ _ _ hrun] at hdeep
    cases hdeep
    cases result with
    | error e => cases hmap
    | ok s =>
      cases hmap
      obtain ⟨hroot, new, hnew⟩ := hsearched
      have horder : s.order = new := hnew.order
      change n ∈ s.order at hn
      change r.name ∈ s.order ∧ _
      rw [horder] at hroot hn ⊢
      refine ⟨(mem_iff_reach hnew hroot _).mpr ?_, fun tok htok ↦ ?_⟩
      · exact ((mem_iff_reach hnew hroot n).mp hn).tail ⟨r, hr, rfl⟩
      · obtain ⟨found, -, -, htrusted⟩ := (hnew.sound n hn).2 r hr
        exact htrusted tok htok
  · intro set' h depth
    rw [planLoad, planLoad, dfs_congr h]

def unsignedCore : AssemblySet :=
  ((∅ : AssemblySet).insert "mystuff" (assembly "mystuff" "1.0.0.0" none
    [⟨"CitizenFX.Core", "1.0.0.0", none, some "de303ab16a3e581c", false⟩])).insert "CitizenFX.Core"
    (assembly "CitizenFX.Core" "1.0.0.0" none [])

theorem core_trusted :
    "de303ab16a3e581c" ∈ resourceTrust.tokens ∧
      planLoad unsignedCore resourceTrust 3 "mystuff" = planLoad
        (unsignedCore.insert "CitizenFX.Core" (assembly "CitizenFX.Core" "1.0.0.0" (some "f00") []))
        resourceTrust 3 "mystuff" := by
  obtain ⟨htrusted, hsame⟩ := references_trusted unsignedCore resourceTrust "mystuff"
  refine ⟨?_, (hsame _ (fun name ↦ ?_) 3).symm⟩
  · have hplan : planLoad unsignedCore resourceTrust 3 "mystuff" =
        some (.ok ⟨["CitizenFX.Core", "mystuff"],
          [("mystuff", "CitizenFX.Core", .ok "1.0.0.0" true)]⟩) := rfl
    exact (htrusted 3 _ hplan "mystuff" (by decide) _ List.mem_cons_self).2 _ rfl
  · rw [lookup_insert_ite, unsignedCore, lookup_insert_ite]
    split <;> rfl

/-- An unsigned assembly is loaded where one with a trusted token is asked for. -/
theorem unsigned_core_loaded :
    planLoad unsignedCore resourceTrust 3 "mystuff" =
        some (.ok ⟨["CitizenFX.Core", "mystuff"],
          [("mystuff", "CitizenFX.Core", .ok "1.0.0.0" true)]⟩) ∧
      (references unsignedCore "mystuff").map (fun r ↦ (r.name, r.publicKeyToken)) =
        [("CitizenFX.Core", some "de303ab16a3e581c")] ∧
      ((unsignedCore.lookup "CitizenFX.Core").bind Loaded.identity).map (·.publicKeyToken) =
        some none :=
  ⟨rfl, rfl, rfl⟩

end Aldivine.Dotnet.Tokens
