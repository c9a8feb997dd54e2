import Aldivine.Foundation.Execution
import Aldivine.Foundation.Table
import Mathlib.Data.Fintype.EquivFin

namespace Aldivine.Entitlements.Service

open Foundation.Execution Foundation.Table

inductive PackageModel
  | free
  | paid
  | subscription
  | privateModel
  | developer
  | beta
  | inviteOnly
deriving DecidableEq

inductive PackagePolicy
  | openPolicy
  | signed
  | protectedPolicy
  | privatePolicy
deriving DecidableEq

inductive EntitlementState
  | free
  | authorized
  | notAuthorized
  | expired (sinceEpoch : BitVec 64)
  | externalProvider (provider : String)
  | fivemEscrowUnsupported
  | unknown
deriving DecidableEq

structure Grant where
  packageId : String
  expiresAt : Option (BitVec 64)
deriving DecidableEq

structure Package where
  packageId : String
  model : PackageModel
  policy : PackagePolicy
  requiresEntitlement : Bool
deriving DecidableEq

structure EntitlementService where
  packages : AList (fun _ : String ↦ Package)
  grants : AList (fun _ : String × String ↦ Grant)

structure Query where
  serverId : String
  packageId : String
  signatureOk : Bool
  nowEpoch : BitVec 64
deriving DecidableEq

namespace EntitlementService

def new : EntitlementService := ⟨∅, ∅⟩

def registerPackage (s : EntitlementService) (package : Package) : EntitlementService :=
  { s with packages := s.packages.insert package.packageId package }

def grant (s : EntitlementService) (serverId : String) (grant : Grant) : EntitlementService :=
  { s with grants := s.grants.insert (serverId, grant.packageId) grant }

def revoke (s : EntitlementService) (serverId packageId : String) : EntitlementService :=
  { s with grants := s.grants.erase (serverId, packageId) }

def check (s : EntitlementService) (q : Query) : EntitlementState :=
  match s.packages.lookup q.packageId with
  | none => .unknown
  | some pkg =>
    if pkg.model = .free ∧ pkg.requiresEntitlement = false then
      if pkg.policy = .signed ∧ q.signatureOk = false then .notAuthorized else .free
    else
      match s.grants.lookup (q.serverId, q.packageId) with
      | none => .notAuthorized
      | some grant =>
        match grant.expiresAt.filter (fun exp ↦ decide (exp ≤ q.nowEpoch)) with
        | some exp => .expired exp
        | none =>
          if (pkg.policy = .signed ∨ pkg.policy = .protectedPolicy) ∧ q.signatureOk = false then
            .notAuthorized
          else .authorized

end EntitlementService

inductive Call
  | registerPackage (package : Package)
  | grant (serverId : String) (grant : Grant)
  | revoke (serverId packageId : String)
deriving DecidableEq

def step (s : EntitlementService) : Call → EntitlementService × Unit
  | .registerPackage package => (s.registerPackage package, ())
  | .grant serverId grant => (s.grant serverId grant, ())
  | .revoke serverId packageId => (s.revoke serverId packageId, ())

section History

def registered (packageId : String) : Call → Option Package
  | .registerPackage package => if package.packageId = packageId then some package else none
  | _ => none

def packageOf (calls : List Call) (packageId : String) : Option Package :=
  latest (registered packageId) calls

def regranted (serverId packageId : String) : Call → Option (Option Grant)
  | .grant server grant =>
    if server = serverId ∧ grant.packageId = packageId then some (some grant) else none
  | .revoke server package => if server = serverId ∧ package = packageId then some none else none
  | _ => none

/-- The last grant of the package to the server, unless it was revoked since. -/
def grantOf (calls : List Call) (serverId packageId : String) : Option Grant :=
  (latest (regranted serverId packageId) calls).join

end History

def SignatureNeeded (pkg : Package) : Prop :=
  pkg.policy = .signed ∨ pkg.policy = .protectedPolicy

def GrantNeeded (pkg : Package) : Prop :=
  pkg.model ≠ .free ∨ pkg.requiresEntitlement = true ∨ pkg.policy = .protectedPolicy ∨
    pkg.policy = .privatePolicy

/-- What must be true of a query after these calls for the package to run. -/
def Entitled (calls : List Call) (q : Query) : Prop :=
  ∃ pkg, packageOf calls q.packageId = some pkg ∧
    (SignatureNeeded pkg → q.signatureOk = true) ∧
    (GrantNeeded pkg → ∃ grant, grantOf calls q.serverId q.packageId = some grant ∧
      ∀ exp, grant.expiresAt = some exp → q.nowEpoch < exp)

def OnlyEntitled (calls : List Call) : Prop :=
  ∀ before, before <+: calls → ∀ q,
    (run step .new before).check q = .free ∨ (run step .new before).check q = .authorized →
      Entitled before q

/-- A free package with a policy that restricts it, registered without the entitlement flag. -/
def Loose (pkg : Package) : Prop :=
  pkg.model = .free ∧ pkg.requiresEntitlement = false ∧
    (pkg.policy = .protectedPolicy ∨ pkg.policy = .privatePolicy)

section Tables

theorem lookup_packages (calls : List Call) (packageId : String) :
    (run step .new calls).packages.lookup packageId = packageOf calls packageId := by
  induction calls using List.reverseRecOn with
  | nil => rfl
  | append_singleton calls call ih =>
    rw [run_concat, packageOf, latest_concat, ← packageOf, ← ih]
    cases call with
    | registerPackage package =>
      refine (lookup_insert_ite packageId package).trans ?_
      by_cases hid : package.packageId = packageId
      · simp [registered, hid]
      · simp [registered, hid, Ne.symm hid]
    | grant serverId grant => rfl
    | revoke serverId packageId => rfl

theorem lookup_grants (calls : List Call) (serverId packageId : String) :
    (run step .new calls).grants.lookup (serverId, packageId) =
      grantOf calls serverId packageId := by
  induction calls using List.reverseRecOn with
  | nil => rfl
  | append_singleton calls call ih =>
    rw [run_concat, grantOf, latest_concat]
    cases call with
    | registerPackage package => exact ih
    | grant server grant =>
      refine (lookup_insert_ite (serverId, packageId) grant).trans ?_
      by_cases hkey : server = serverId ∧ grant.packageId = packageId
      · simp [regranted, hkey]
      · have hne : (serverId, packageId) ≠ (server, grant.packageId) := by
          intro heq
          obtain ⟨hserver, hpackage⟩ := Prod.mk.inj heq
          exact hkey ⟨hserver.symm, hpackage.symm⟩
        rw [if_neg hne, regranted, if_neg hkey]
        exact ih
    | revoke server package =>
      by_cases hkey : server = serverId ∧ package = packageId
      · obtain ⟨rfl, rfl⟩ := hkey
        rw [regranted, if_pos ⟨rfl, rfl⟩]
        exact AList.lookup_erase _ _
      · have hne : (serverId, packageId) ≠ (server, package) := by
          intro heq
          obtain ⟨hserver, hpackage⟩ := Prod.mk.inj heq
          exact hkey ⟨hserver.symm, hpackage.symm⟩
        rw [regranted, if_neg hkey]
        exact (AList.lookup_erase_ne hne).trans ih

theorem packageOf_mem {calls : List Call} {packageId : String} {pkg : Package}
    (h : packageOf calls packageId = some pkg) : .registerPackage pkg ∈ calls := by
  obtain ⟨call, hmem, hcall⟩ := List.exists_of_findSome?_eq_some h
  have hreg : call = .registerPackage pkg := by
    cases call with
    | registerPackage package =>
      obtain ⟨-, heq⟩ := Option.ite_none_right_eq_some.mp hcall
      exact congrArg Call.registerPackage (Option.some.inj heq)
    | grant serverId grant => cases hcall
    | revoke serverId packageId => cases hcall
  exact hreg ▸ List.mem_reverse.mp hmem

end Tables

section Checks

variable {s : EntitlementService} {q : Query} {pkg : Package}

theorem check_cases (h : s.check q = .free ∨ s.check q = .authorized) :
    ∃ pkg, s.packages.lookup q.packageId = some pkg ∧
      ((pkg.model = .free ∧ pkg.requiresEntitlement = false ∧
          (pkg.policy = .signed → q.signatureOk = true)) ∨
        ((SignatureNeeded pkg → q.signatureOk = true) ∧
          ∃ grant, s.grants.lookup (q.serverId, q.packageId) = some grant ∧
            ∀ exp, grant.expiresAt = some exp → q.nowEpoch < exp)) := by
  unfold EntitlementService.check at h
  cases hpkg : s.packages.lookup q.packageId with
  | none => simp [hpkg] at h
  | some pkg =>
    refine ⟨pkg, rfl, ?_⟩
    simp only [hpkg] at h
    split at h
    · rename_i hfree
      refine .inl ⟨hfree.1, hfree.2, fun hsigned ↦ ?_⟩
      split at h
      · simp at h
      · rename_i hsig
        exact Bool.eq_true_of_not_eq_false (fun hbad ↦ hsig ⟨hsigned, hbad⟩)
    · cases hgrant : s.grants.lookup (q.serverId, q.packageId) with
      | none => simp [hgrant] at h
      | some grant =>
        simp only [hgrant] at h
        split at h
        · simp at h
        · rename_i hexp
          split at h
          · simp at h
          · rename_i hsig
            refine .inr ⟨fun hneeded ↦ ?_, grant, rfl, fun exp hat ↦ ?_⟩
            · exact Bool.eq_true_of_not_eq_false (fun hbad ↦ hsig ⟨hneeded, hbad⟩)
            · have hlate := Option.filter_eq_none_iff.mp hexp exp hat
              exact BitVec.not_le.mp (by simpa using hlate)

theorem check_loose (hloose : Loose pkg) (hpkg : s.packages.lookup q.packageId = some pkg) :
    s.check q = .free := by
  have hpolicy : ¬(pkg.policy = .signed ∧ q.signatureOk = false) := by
    rintro ⟨hsigned, -⟩
    rcases hloose.2.2 with hpol | hpol
    · cases hsigned.symm.trans hpol
    · cases hsigned.symm.trans hpol
  simp only [EntitlementService.check, hpkg]
  rw [if_pos ⟨hloose.1, hloose.2.1⟩, if_neg hpolicy]

end Checks

theorem entitled_of_check {calls : List Call} {q : Query}
    (hstrict : ∀ pkg, .registerPackage pkg ∈ calls → ¬Loose pkg)
    (h : (run step .new calls).check q = .free ∨ (run step .new calls).check q = .authorized) :
    Entitled calls q := by
  obtain ⟨pkg, hpkg, hcases⟩ := check_cases h
  rw [lookup_packages] at hpkg
  refine ⟨pkg, hpkg, ?_⟩
  rcases hcases with ⟨hfree, hflag, hsigned⟩ | ⟨hsig, grant, hgrant, hexp⟩
  · have hopen (hpolicy : pkg.policy = .protectedPolicy ∨ pkg.policy = .privatePolicy) : False :=
      hstrict pkg (packageOf_mem hpkg) ⟨hfree, hflag, hpolicy⟩
    constructor
    · intro hneeded
      exact hneeded.elim hsigned (fun hpol ↦ (hopen (.inl hpol)).elim)
    · rintro (hmodel | hrequires | hpolicy)
      · exact absurd hfree hmodel
      · cases hflag.symm.trans hrequires
      · exact (hopen hpolicy).elim
  · refine ⟨hsig, fun _ ↦ ⟨grant, ?_, hexp⟩⟩
    rw [← lookup_grants]
    exact hgrant

theorem exists_ungranted (calls : List Call) (packageId : String) :
    ∃ serverId, grantOf calls serverId packageId = none := by
  obtain ⟨serverId, hfresh⟩ := Infinite.exists_notMem_finset
    ((run step .new calls).grants.keys.map Prod.fst).toFinset
  refine ⟨serverId, ?_⟩
  rw [← lookup_grants, AList.lookup_eq_none]
  intro hmem
  refine hfresh (List.mem_toFinset.mpr (List.mem_map.mpr ⟨(serverId, packageId), ?_, rfl⟩))
  exact AList.mem_keys.mp hmem

/-- Only entitled servers run a package exactly when no free package is registered with a
protecting policy and without the entitlement flag. -/
theorem onlyEntitled_iff (calls : List Call) :
    OnlyEntitled calls ↔ ∀ pkg, .registerPackage pkg ∈ calls → ¬Loose pkg := by
  constructor
  · intro honly pkg hmem hloose
    obtain ⟨before, after, rfl⟩ := List.append_of_mem hmem
    have hpackage : packageOf (before ++ [.registerPackage pkg]) pkg.packageId = some pkg := by
      rw [packageOf, latest_concat, registered, if_pos rfl, Option.some_or]
    obtain ⟨serverId, hnone⟩ :=
      exists_ungranted (before ++ [.registerPackage pkg]) pkg.packageId
    -- no signature and no grant, and still the answer is free
    have hanswer := check_loose (q := ⟨serverId, pkg.packageId, false, 0⟩) hloose
      ((lookup_packages _ _).trans hpackage)
    obtain ⟨pkg', hpkg', -, hgrant⟩ :=
      honly (before ++ [.registerPackage pkg]) ⟨after, by simp⟩ _ (.inl hanswer)
    obtain rfl := Option.some.inj (hpackage.symm.trans hpkg')
    obtain ⟨grant, hgranted, -⟩ := hgrant (.inr (.inr hloose.2.2))
    cases hnone.symm.trans hgranted
  · rintro hstrict before ⟨after, rfl⟩ q hanswer
    refine entitled_of_check (fun pkg hpkg ↦ ?_) hanswer
    exact hstrict pkg (List.mem_append_left _ hpkg)

/-- A protected free package runs on a server with no grant and with a bad signature. -/
theorem protected_free_not_entitled :
    ¬OnlyEntitled [.registerPackage ⟨"hud", .free, .protectedPolicy, false⟩] := by
  intro honly
  obtain ⟨pkg, hpkg, hsig, -⟩ :=
    honly _ List.prefix_rfl ⟨"srv", "hud", false, 1000⟩ (.inl (by decide))
  have hpkg' : pkg = ⟨"hud", .free, .protectedPolicy, false⟩ :=
    Option.some.inj (hpkg.symm.trans (by decide))
  subst hpkg'
  exact absurd (hsig (.inr rfl)) Bool.false_ne_true

end Aldivine.Entitlements.Service
