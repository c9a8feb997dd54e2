import Aldivine.Foundation.Locate
import Aldivine.Negotiation.Features

namespace Aldivine.Negotiation.Order

open Model Protocols Features Foundation.Locate

variable {policy : NegotiationPolicy} {client : Hello} {cf : FeatureId}
  {server features : List FeatureId}

inductive ErrorKind
  | clientTooOld
  | serverTooOld
  | incompatible
  | requiredFeatureMissing
  | malformed
deriving DecidableEq

def kind : NegotiationError → ErrorKind
  | .clientTooOld .. => .clientTooOld
  | .serverTooOld .. => .serverTooOld
  | .incompatible _ => .incompatible
  | .requiredFeatureMissing _ => .requiredFeatureMissing
  | .malformed _ => .malformed

/-- Both handshakes end with the same kind of error, or with the same permission and the same
outcome for every feature of the client. -/
def SameResult (client : Hello) :
    Except NegotiationError NegotiatedSet → Except NegotiationError NegotiatedSet → Prop
  | .error e, .error e' => kind e = kind e'
  | .ok set, .ok set' => set.allowed = set'.allowed ∧
      ∀ cf ∈ client.features, set.features[cf.key]? = set'.features[cf.key]?
  | _, _ => False

structure Lawful (policy : NegotiationPolicy) (client : Hello) : Prop where
  order : ∀ server features : List FeatureId, server.Perm policy.serverFeatures →
    features.Perm client.features →
    SameResult client (negotiate policy client)
      (negotiate { policy with serverFeatures := server } { client with features := features })
  selected : ∀ set, negotiate policy client = .ok set → ∀ cf ∈ client.features,
    policy.isDisabled cf = false →
    (set.features[cf.key]? = some (.selected cf) ↔
      ∃ sf ∈ policy.serverFeatures, sf.sameFeature cf = true ∧ cf.version ≤ sf.version)
  required : ∀ set, negotiate policy client = .ok set → set.allowed = true →
    ∀ r ∈ policy.strictRequiredFeatures, client.offers r = true

/-- The outcome of a feature of the client is the same in every order: either an entry that only the
server has takes its key, and no other one does, or the key is its own and the entries of the server
for it do not contradict each other. -/
inductive Settled (policy : NegotiationPolicy) (client : Hello) (cf : FeatureId) : Prop
  | overwritten (sf : FeatureId) (hmem : sf ∈ policy.serverFeatures)
      (honly : client.offers sf = false) (hkey : sf.key = cf.key)
      (hunique : ∀ sf' ∈ policy.serverFeatures, client.offers sf' = false → sf'.key = cf.key →
        sf' = sf)
      (hold : policy.isDisabled cf = false →
        ∀ sf' ∈ policy.serverFeatures, sf'.sameFeature cf = true → sf'.version < cf.version)
  | own (hown : ∀ sf ∈ policy.serverFeatures, client.offers sf = false → sf.key ≠ cf.key)
      (hunique : ∀ cf' ∈ client.features, cf'.key = cf.key → cf' = cf)
      (hversions : policy.isDisabled cf = false →
        (∀ sf ∈ policy.serverFeatures, sf.sameFeature cf = true → cf.version ≤ sf.version) ∨
        ∀ sf ∈ policy.serverFeatures, ∀ sf' ∈ policy.serverFeatures, sf.sameFeature cf = true →
          sf'.sameFeature cf = true → sf = sf')

def Outdated (policy : NegotiationPolicy) (cf : FeatureId) : Prop :=
  policy.isDisabled cf = false ∧ (∃ sf ∈ policy.serverFeatures, sf.sameFeature cf = true) ∧
    ∀ sf ∈ policy.serverFeatures, sf.sameFeature cf = true → sf.version < cf.version

/-- Every feature of the client is settled, and a required feature that nobody offers meets another
reason to refuse. -/
structure Ordered (policy : NegotiationPolicy) (client : Hello) : Prop where
  settled : ∀ cf ∈ client.features, Settled policy client cf
  required : Agreeable policy client → (∀ cf ∈ client.features, ¬ Outdated policy cf) →
    ∀ r ∈ policy.strictRequiredFeatures,
      (∃ sf ∈ policy.serverFeatures, sf.sameFeature r = true) ∨ client.offers r = true

/-- The entries of the server for a feature are all new enough, or all too old. -/
def Uniform (policy : NegotiationPolicy) (cf : FeatureId) : Prop :=
  (∀ sf ∈ policy.serverFeatures, sf.sameFeature cf = true → cf.version ≤ sf.version) ∨
    ∀ sf ∈ policy.serverFeatures, sf.sameFeature cf = true → sf.version < cf.version

theorem Settled.uniform (h : Settled policy client cf) (hdisabled : policy.isDisabled cf = false) :
    Uniform policy cf := by
  cases h with
  | overwritten sf hmem honly hkey hunique hold => exact .inr (hold hdisabled)
  | own hown hunique hversions =>
    rcases hversions hdisabled with hnew | hsame
    · exact .inl hnew
    · by_cases hnew : ∃ sf ∈ policy.serverFeatures, sf.sameFeature cf = true ∧
          cf.version ≤ sf.version
      · obtain ⟨sf, hsf, hcf, hversion⟩ := hnew
        refine .inl (fun sf' hsf' hcf' ↦ ?_)
        rw [hsame sf' hsf' sf hsf hcf' hcf]
        exact hversion
      · refine .inr (fun sf hsf hcf ↦ ?_)
        exact BitVec.not_le.mp (fun hversion ↦ hnew ⟨sf, hsf, hcf, hversion⟩)

theorem find?_sameFeature_cases (policy : NegotiationPolicy) (cf : FeatureId) :
    (policy.serverFeatures.find? (·.sameFeature cf) = none ∧
        ∀ sf ∈ policy.serverFeatures, sf.sameFeature cf = false) ∨
      ∃ sf ∈ policy.serverFeatures, sf.sameFeature cf = true ∧
        policy.serverFeatures.find? (·.sameFeature cf) = some sf := by
  cases hfind : policy.serverFeatures.find? (·.sameFeature cf) with
  | none => exact .inl ⟨rfl, fun sf hsf ↦ by simpa using List.find?_eq_none.mp hfind sf hsf⟩
  | some sf =>
    have hcf := List.find?_some hfind
    exact .inr ⟨sf, List.mem_of_find?_eq_some hfind, hcf, rfl⟩

theorem isBehind_iff (h : policy.isDisabled cf = false → Uniform policy cf) :
    isBehind policy cf = true ↔ Outdated policy cf := by
  unfold isBehind
  cases hdisabled : policy.isDisabled cf with
  | true => simp [Outdated, hdisabled]
  | false =>
    rcases find?_sameFeature_cases policy cf with ⟨hfind, hnone⟩ | ⟨sf, hsf, hcf, hfind⟩
    · rw [hfind]
      refine iff_of_false (by simp) (fun houtdated ↦ ?_)
      obtain ⟨-, ⟨sf, hsf, hcf⟩, -⟩ := houtdated
      cases (hnone sf hsf).symm.trans hcf
    · rw [hfind]
      simp only [Bool.not_false, Bool.true_and, Option.any_some, decide_eq_true_eq]
      constructor
      · intro hbehind
        refine ⟨hdisabled, ⟨sf, hsf, hcf⟩, ?_⟩
        rcases h hdisabled with hnew | hold
        · exact absurd hbehind (BitVec.not_lt.mpr (hnew sf hsf hcf))
        · exact hold
      · intro houtdated
        exact houtdated.2.2 sf hsf hcf

/-- All entries for a feature give the same outcome: they are all new enough, or all the same. -/
theorem answer_const_iff :
    (∀ sf ∈ policy.serverFeatures, ∀ sf' ∈ policy.serverFeatures, sf.sameFeature cf = true →
        sf'.sameFeature cf = true → answer cf sf = answer cf sf') ↔
      (∀ sf ∈ policy.serverFeatures, sf.sameFeature cf = true → cf.version ≤ sf.version) ∨
        ∀ sf ∈ policy.serverFeatures, ∀ sf' ∈ policy.serverFeatures, sf.sameFeature cf = true →
          sf'.sameFeature cf = true → sf = sf' := by
  have hnew {sf : FeatureId} (h : cf.version ≤ sf.version) : answer cf sf = .selected cf := if_pos h
  have hold {sf : FeatureId} (h : ¬ cf.version ≤ sf.version) :
      answer cf sf = .requiresServerUpdate sf := if_neg h
  constructor
  · intro h
    by_cases hex : ∃ sf ∈ policy.serverFeatures, sf.sameFeature cf = true ∧
        cf.version ≤ sf.version
    · obtain ⟨sf, hsf, hcf, hversion⟩ := hex
      refine .inl (fun sf' hsf' hcf' ↦ ?_)
      by_contra hversion'
      have heq := h sf hsf sf' hsf' hcf hcf'
      rw [hnew hversion, hold hversion'] at heq
      cases heq
    · refine .inr (fun sf hsf sf' hsf' hcf hcf' ↦ ?_)
      have heq := h sf hsf sf' hsf' hcf hcf'
      rw [hold (fun hv ↦ hex ⟨sf, hsf, hcf, hv⟩), hold (fun hv ↦ hex ⟨sf', hsf', hcf', hv⟩)] at heq
      exact FeatureOutcome.requiresServerUpdate.inj heq
  · intro h sf hsf sf' hsf' hcf hcf'
    rcases h with hall | hsame
    · rw [hnew (hall sf hsf hcf), hnew (hall sf' hsf' hcf')]
    · rw [hsame sf hsf sf' hsf' hcf hcf']

section Reordered

theorem offers_perm (hfeatures : features.Perm client.features) (f : FeatureId) :
    Hello.offers { client with features := features } f = client.offers f :=
  hfeatures.any_eq

theorem missing_perm (hserver : server.Perm policy.serverFeatures)
    (hfeatures : features.Perm client.features)
    (h : ∀ sf ∈ policy.serverFeatures, isMissing policy client sf = false) :
    ∀ sf ∈ server, isMissing { policy with serverFeatures := server }
      { client with features := features } sf = false := by
  intro sf hsf
  have hkept := h sf (hserver.mem_iff.mp hsf)
  unfold isMissing at hkept ⊢
  rw [offers_perm hfeatures]
  exact hkept

theorem outcome_perm (hserver : server.Perm policy.serverFeatures)
    (h : policy.isDisabled cf = false →
      ∀ sf ∈ policy.serverFeatures, ∀ sf' ∈ policy.serverFeatures, sf.sameFeature cf = true →
        sf'.sameFeature cf = true → answer cf sf = answer cf sf') :
    outcome { policy with serverFeatures := server } cf = outcome policy cf := by
  have hsame : NegotiationPolicy.isDisabled { policy with serverFeatures := server } cf =
      policy.isDisabled cf := rfl
  unfold outcome
  rw [hsame]
  cases hdisabled : policy.isDisabled cf with
  | true => rfl
  | false =>
    have hfound := find?_map_perm hserver (h hdisabled)
    simp only [Bool.false_eq_true, if_false]
    rw [hfound]

theorem written_server {sf : FeatureId} (hmem : sf ∈ policy.serverFeatures)
    (honly : client.offers sf = false)
    (hunique : ∀ sf' ∈ policy.serverFeatures, client.offers sf' = false → sf'.key = sf.key →
      sf' = sf) : written policy client sf.key = some (.requiresClientUpdate sf) := by
  have hfind : (policy.serverFeatures.filter (fun sf ↦ !client.offers sf)).reverse.find?
      (fun sf' ↦ decide (sf'.key = sf.key)) = some sf := by
    apply find?_eq_of_unique
    · simpa [honly] using hmem
    · exact decide_eq_true rfl
    · intro sf' hsf' hkey
      rw [List.mem_reverse, List.mem_filter, Bool.not_eq_true'] at hsf'
      exact hunique sf' hsf'.1 hsf'.2 (of_decide_eq_true hkey)
  rw [written, hfind]
  rfl

theorem written_own
    (hown : ∀ sf ∈ policy.serverFeatures, client.offers sf = false → sf.key ≠ cf.key) :
    written policy client cf.key =
      (client.features.reverse.find? (fun cf' ↦ decide (cf'.key = cf.key))).map
        (outcome policy) := by
  have hfind : (policy.serverFeatures.filter (fun sf ↦ !client.offers sf)).reverse.find?
      (fun sf ↦ decide (sf.key = cf.key)) = none := by
    rw [List.find?_eq_none]
    intro sf hsf hkey
    rw [List.mem_reverse, List.mem_filter, Bool.not_eq_true'] at hsf
    exact hown sf hsf.1 hsf.2 (of_decide_eq_true hkey)
  rw [written, hfind]
  rfl

theorem Settled.written (h : Settled policy client cf) (hcf : cf ∈ client.features)
    (hserver : server.Perm policy.serverFeatures) (hfeatures : features.Perm client.features) :
    Features.written { policy with serverFeatures := server } { client with features := features }
      cf.key = Features.written policy client cf.key := by
  cases h with
  | overwritten sf hmem honly hkey hunique hold =>
    rw [← hkey] at hunique ⊢
    rw [written_server hmem honly hunique]
    apply written_server
    · exact hserver.mem_iff.mpr hmem
    · rw [offers_perm hfeatures]
      exact honly
    · intro sf' hsf' honly' hkey'
      rw [offers_perm hfeatures] at honly'
      exact hunique sf' (hserver.mem_iff.mp hsf') honly' hkey'
  | own hown hunique hversions =>
    have hfind {l : List FeatureId} (hl : l.Perm client.features) :
        l.reverse.find? (fun cf' ↦ decide (cf'.key = cf.key)) = some cf := by
      apply find?_eq_of_unique
      · exact List.mem_reverse.mpr (hl.mem_iff.mpr hcf)
      · exact decide_eq_true rfl
      · intro cf' hcf' hkey
        exact hunique cf' (hl.mem_iff.mp (List.mem_reverse.mp hcf')) (of_decide_eq_true hkey)
    have houtcome := outcome_perm hserver (fun hdisabled ↦
      answer_const_iff.mpr (hversions hdisabled))
    have hown' : ∀ sf ∈ server,
        Hello.offers { client with features := features } sf = false → sf.key ≠ cf.key := by
      intro sf hsf honly
      rw [offers_perm hfeatures] at honly
      exact hown sf (hserver.mem_iff.mp hsf) honly
    rw [written_own hown, written_own hown', hfind hfeatures, hfind (List.Perm.refl _)]
    exact congrArg some houtcome

theorem uniform_perm (hserver : server.Perm policy.serverFeatures) :
    Uniform { policy with serverFeatures := server } cf ↔ Uniform policy cf := by
  simp only [Uniform, hserver.mem_iff]

theorem outdated_perm (hserver : server.Perm policy.serverFeatures) :
    Outdated { policy with serverFeatures := server } cf ↔ Outdated policy cf := by
  simp only [Outdated, hserver.mem_iff]
  rfl

theorem Settled.isBehind (h : Settled policy client cf)
    (hserver : server.Perm policy.serverFeatures) :
    Features.isBehind { policy with serverFeatures := server } cf =
      Features.isBehind policy cf := by
  have huniform (hdisabled : policy.isDisabled cf = false) :
      Uniform { policy with serverFeatures := server } cf :=
    (uniform_perm hserver).mpr (h.uniform hdisabled)
  rw [Bool.eq_iff_iff, isBehind_iff huniform, isBehind_iff h.uniform]
  exact outdated_perm hserver

end Reordered

section Lawful

theorem outcome_selected_iff (hdisabled : policy.isDisabled cf = false)
    (huniform : Uniform policy cf) :
    outcome policy cf = .selected cf ↔
      ∃ sf ∈ policy.serverFeatures, sf.sameFeature cf = true ∧ cf.version ≤ sf.version := by
  unfold outcome
  rw [hdisabled]
  simp only [Bool.false_eq_true, if_false]
  rcases find?_sameFeature_cases policy cf with ⟨hfind, hnone⟩ | ⟨sf, hsf, hcf, hfind⟩
  · rw [hfind]
    refine iff_of_false (fun h ↦ ?_) (fun h ↦ ?_)
    · cases h
    · obtain ⟨sf, hsf, hcf, -⟩ := h
      cases (hnone sf hsf).symm.trans hcf
  · rw [hfind, Option.map_some, Option.getD_some, answer]
    by_cases hversion : cf.version ≤ sf.version
    · rw [if_pos hversion]
      exact iff_of_true rfl ⟨sf, hsf, hcf, hversion⟩
    · rw [if_neg hversion]
      refine iff_of_false (fun h ↦ ?_) (fun h ↦ ?_)
      · cases h
      · obtain ⟨sf', hsf', hcf', hversion'⟩ := h
        rcases huniform with hnew | hold
        · exact hversion (hnew sf hsf hcf)
        · exact absurd hversion' (BitVec.not_le.mpr (hold sf' hsf' hcf'))

theorem Settled.selected_iff (h : Settled policy client cf) (hcf : cf ∈ client.features)
    (hdisabled : policy.isDisabled cf = false) :
    Features.written policy client cf.key = some (.selected cf) ↔
      ∃ sf ∈ policy.serverFeatures, sf.sameFeature cf = true ∧ cf.version ≤ sf.version := by
  have huniform := h.uniform hdisabled
  cases h with
  | overwritten sf hmem honly hkey hunique hold =>
    rw [← hkey] at hunique ⊢
    rw [written_server hmem honly hunique]
    refine iff_of_false nofun (fun h ↦ ?_)
    obtain ⟨sf', hsf', hcf', hversion⟩ := h
    exact absurd hversion (BitVec.not_le.mpr (hold hdisabled sf' hsf' hcf'))
  | own hown hunique hversions =>
    have hfind : client.features.reverse.find? (fun cf' ↦ decide (cf'.key = cf.key)) = some cf := by
      apply find?_eq_of_unique
      · exact List.mem_reverse.mpr hcf
      · exact decide_eq_true rfl
      · intro cf' hcf' hkey
        exact hunique cf' (List.mem_reverse.mp hcf') (of_decide_eq_true hkey)
    rw [written_own hown, hfind, Option.map_some, Option.some.injEq]
    exact outcome_selected_iff hdisabled huniform

theorem sameFeature_trans {a b c : FeatureId} (hab : a.sameFeature b = true)
    (hbc : b.sameFeature c = true) : a.sameFeature c = true := by
  unfold FeatureId.sameFeature at *
  simp_all

theorem offers_of_sameFeature {a b : FeatureId} (ha : client.offers a = true)
    (hab : a.sameFeature b = true) : client.offers b = true := by
  obtain ⟨cf, hcf, hsame⟩ := List.any_eq_true.mp ha
  exact List.any_eq_true.mpr ⟨cf, hcf, sameFeature_trans hsame hab⟩

theorem sameFeature_comm (a b : FeatureId) : a.sameFeature b = b.sameFeature a := by
  unfold FeatureId.sameFeature
  rw [BEq.comm (a := a.ns), BEq.comm (a := a.name)]

theorem lawful_of_missing (h : ∃ sf ∈ policy.serverFeatures, isMissing policy client sf = true) :
    Lawful policy client := by
  obtain ⟨sf, herror⟩ := negotiate_missing h
  refine ⟨fun server features hserver hfeatures ↦ ?_, fun set hset ↦ ?_, fun set hset ↦ ?_⟩
  · obtain ⟨sf', hsf', hmissing⟩ := h
    have hmissing' : isMissing { policy with serverFeatures := server }
        { client with features := features } sf' = true := by
      unfold isMissing at hmissing ⊢
      rw [offers_perm hfeatures]
      exact hmissing
    obtain ⟨sf'', herror'⟩ := @negotiate_missing { policy with serverFeatures := server }
      { client with features := features } ⟨sf', hserver.mem_iff.mpr hsf', hmissing'⟩
    rw [herror, herror']
    exact rfl
  · cases herror.symm.trans hset
  · cases herror.symm.trans hset

theorem lawful_of_ordered
    (hpresent : ∀ sf ∈ policy.serverFeatures, isMissing policy client sf = false)
    (h : Ordered policy client) : Lawful policy client := by
  obtain ⟨set, hset, hwritten, hallowed⟩ := negotiate_ok hpresent
  have hunbehind (cf : FeatureId) (hcf : cf ∈ client.features) :
      isBehind policy cf = true ↔ Outdated policy cf := isBehind_iff (h.settled cf hcf).uniform
  refine ⟨fun server features hserver hfeatures ↦ ?_, fun set' hset' cf hcf hdisabled ↦ ?_,
    fun set' hset' htrue r hr ↦ ?_⟩
  · obtain ⟨set', hset', hwritten', hallowed'⟩ :=
      @negotiate_ok { policy with serverFeatures := server } { client with features := features }
        (missing_perm hserver hfeatures hpresent)
    rw [hset, hset']
    refine ⟨?_, fun cf hcf ↦ ?_⟩
    · rw [Bool.eq_iff_iff, hallowed, hallowed']
      refine and_congr Iff.rfl ?_
      constructor
      · intro hall cf hcf
        rw [(h.settled cf (hfeatures.mem_iff.mp hcf)).isBehind hserver]
        exact hall cf (hfeatures.mem_iff.mp hcf)
      · intro hall cf hcf
        rw [← (h.settled cf hcf).isBehind hserver]
        exact hall cf (hfeatures.mem_iff.mpr hcf)
    · rw [hwritten, hwritten', (h.settled cf hcf).written hcf hserver hfeatures]
  · cases hset.symm.trans hset'
    rw [hwritten]
    exact (h.settled cf hcf).selected_iff hcf hdisabled
  · cases hset.symm.trans hset'
    obtain ⟨hagreeable, hall⟩ := hallowed.mp htrue
    have hcurrent : ∀ cf ∈ client.features, ¬ Outdated policy cf := by
      intro cf hcf houtdated
      cases (hall cf hcf).symm.trans ((hunbehind cf hcf).mpr houtdated)
    rcases h.required hagreeable hcurrent r hr with ⟨sf, hsf, hsame⟩ | hoffers
    · have hoffers : client.offers sf = true := by
        by_contra honly
        have hmissing : isMissing policy client sf = true := by
          unfold isMissing
          rw [Bool.and_eq_true_iff, Bool.not_eq_true', List.any_eq_true]
          exact ⟨Bool.not_eq_true _ ▸ honly, r, hr, sameFeature_comm r sf ▸ hsame⟩
        cases (hpresent sf hsf).symm.trans hmissing
      exact offers_of_sameFeature hoffers hsame
    · exact hoffers

theorem Lawful.written (h : Lawful policy client)
    (hpresent : ∀ sf ∈ policy.serverFeatures, isMissing policy client sf = false)
    (hcf : cf ∈ client.features) (hserver : server.Perm policy.serverFeatures)
    (hfeatures : features.Perm client.features) :
    Features.written { policy with serverFeatures := server } { client with features := features }
      cf.key = Features.written policy client cf.key := by
  obtain ⟨set, hset, hwritten, -⟩ := negotiate_ok hpresent
  obtain ⟨set', hset', hwritten', -⟩ :=
    @negotiate_ok { policy with serverFeatures := server } { client with features := features }
      (missing_perm hserver hfeatures hpresent)
  have hsame := h.order server features hserver hfeatures
  rw [hset, hset'] at hsame
  rw [← hwritten, ← hwritten']
  exact (hsame.2 cf hcf).symm

theorem written_last {rest : List FeatureId}
    (hown : ∀ sf ∈ policy.serverFeatures, client.offers sf = false → sf.key ≠ cf.key)
    {cf' : FeatureId} (hkey : cf'.key = cf.key) (hfeatures : (rest ++ [cf']).Perm client.features)
    (hserver : server.Perm policy.serverFeatures) :
    Features.written { policy with serverFeatures := server }
      { client with features := rest ++ [cf'] } cf.key =
        some (outcome { policy with serverFeatures := server } cf') := by
  have hown' : ∀ sf ∈ server,
      Hello.offers { client with features := rest ++ [cf'] } sf = false → sf.key ≠ cf.key := by
    intro sf hsf honly
    rw [offers_perm hfeatures] at honly
    exact hown sf (hserver.mem_iff.mp hsf) honly
  rw [written_own hown']
  simp [hkey]

theorem written_server_last {sf : FeatureId} {rest : List FeatureId}
    (honly : client.offers sf = false) :
    Features.written { policy with serverFeatures := rest ++ [sf] } client sf.key =
      some (.requiresClientUpdate sf) := by
  simp [Features.written, honly]

theorem outcome_first {sf : FeatureId} {rest : List FeatureId}
    (hdisabled : policy.isDisabled cf = false) (hcf : sf.sameFeature cf = true) :
    outcome { policy with serverFeatures := sf :: rest } cf = answer cf sf := by
  have hsame : NegotiationPolicy.isDisabled { policy with serverFeatures := sf :: rest } cf =
      false := hdisabled
  simp [outcome, hsame, hcf]

def named : FeatureOutcome → FeatureId
  | .selected f => f
  | .clientOnlyUnsupported f => f
  | .requiresClientUpdate f => f
  | .requiresServerUpdate f => f
  | .disabledByPolicy f => f

theorem named_outcome (policy : NegotiationPolicy) (cf : FeatureId) :
    (named (outcome policy cf)).sameFeature cf = true := by
  have hself : cf.sameFeature cf = true := by simp [FeatureId.sameFeature]
  unfold outcome
  cases policy.isDisabled cf with
  | true => exact hself
  | false =>
    rcases find?_sameFeature_cases policy cf with ⟨hfind, -⟩ | ⟨sf, -, hcf, hfind⟩
    · rw [hfind]
      exact hself
    · rw [hfind]
      simp only [Bool.false_eq_true, if_false, Option.map_some, Option.getD_some, answer]
      split
      · exact hself
      · exact hcf

theorem eq_of_key {a b : FeatureId} (hsame : a.sameFeature b = true) (hkey : a.key = b.key) :
    a = b := by
  obtain ⟨ns, name, version⟩ := a
  obtain ⟨ns', name', version'⟩ := b
  obtain ⟨hns, hname⟩ := Bool.and_eq_true_iff.mp hsame
  obtain rfl := eq_of_beq hns
  obtain rfl := eq_of_beq hname
  have hversion : version.toNat.repr = version'.toNat.repr :=
    (String.append_right_inj _).mp hkey
  rw [BitVec.eq_of_toNat_eq (Nat.repr_injective hversion)]

theorem eq_of_outcome {cf' : FeatureId} (h : outcome policy cf' = outcome policy cf)
    (hkey : cf'.key = cf.key) : cf' = cf := by
  have hleft := named_outcome policy cf'
  rw [h, sameFeature_comm] at hleft
  exact eq_of_key (sameFeature_trans hleft (named_outcome policy cf)) hkey

theorem settled_of_lawful (h : Lawful policy client)
    (hpresent : ∀ sf ∈ policy.serverFeatures, isMissing policy client sf = false)
    (hcf : cf ∈ client.features) : Settled policy client cf := by
  obtain ⟨set, hset, hwritten, -⟩ := negotiate_ok hpresent
  by_cases hhidden : ∃ sf ∈ policy.serverFeatures, client.offers sf = false ∧ sf.key = cf.key
  · obtain ⟨sf, hmem, honly, hkey⟩ := hhidden
    have hlast {sf' : FeatureId} (hmem' : sf' ∈ policy.serverFeatures)
        (honly' : client.offers sf' = false) (hkey' : sf'.key = cf.key) :
        Features.written policy client cf.key = some (.requiresClientUpdate sf') := by
      obtain ⟨rest, hrest⟩ := exists_perm_concat hmem'
      rw [← h.written hpresent hcf hrest (List.Perm.refl _), ← hkey']
      exact written_server_last honly'
    refine .overwritten sf hmem honly hkey (fun sf' hmem' honly' hkey' ↦ ?_)
      (fun hdisabled sf' hsf' hcf' ↦ ?_)
    · have heq := (hlast hmem' honly' hkey').symm.trans (hlast hmem honly hkey)
      exact FeatureOutcome.requiresClientUpdate.inj (Option.some.inj heq)
    · by_contra hversion
      rw [BitVec.not_lt] at hversion
      have hselected := (h.selected set hset cf hcf hdisabled).mpr ⟨sf', hsf', hcf', hversion⟩
      rw [hwritten, hlast hmem honly hkey] at hselected
      cases hselected
  · have hown : ∀ sf ∈ policy.serverFeatures, client.offers sf = false → sf.key ≠ cf.key :=
      fun sf hsf honly hkey ↦ hhidden ⟨sf, hsf, honly, hkey⟩
    have hlast {server : List FeatureId} (hserver : server.Perm policy.serverFeatures)
        {cf' : FeatureId} (hcf' : cf' ∈ client.features) (hkey : cf'.key = cf.key) :
        Features.written policy client cf.key =
          some (outcome { policy with serverFeatures := server } cf') := by
      obtain ⟨rest, hrest⟩ := exists_perm_concat hcf'
      rw [← h.written hpresent hcf hserver hrest]
      exact written_last hown hkey hrest hserver
    refine .own hown (fun cf' hcf' hkey ↦ ?_) (fun hdisabled ↦ ?_)
    · have heq := (hlast (List.Perm.refl _) hcf' hkey).symm.trans (hlast (List.Perm.refl _) hcf rfl)
      exact eq_of_outcome (Option.some.inj heq) hkey
    · apply answer_const_iff.mp
      have hfirst {sf : FeatureId} (hsf : sf ∈ policy.serverFeatures)
          (hsame : sf.sameFeature cf = true) :
          Features.written policy client cf.key = some (answer cf sf) := by
        obtain ⟨rest, hrest⟩ := exists_perm_cons hsf
        rw [hlast hrest hcf rfl, outcome_first hdisabled hsame]
      intro sf hsf sf' hsf' hsame hsame'
      exact Option.some.inj ((hfirst hsf hsame).symm.trans (hfirst hsf' hsame'))

theorem ordered_of_lawful (h : Lawful policy client)
    (hpresent : ∀ sf ∈ policy.serverFeatures, isMissing policy client sf = false) :
    Ordered policy client := by
  obtain ⟨set, hset, -, hallowed⟩ := negotiate_ok hpresent
  have hsettled (cf : FeatureId) (hcf : cf ∈ client.features) : Settled policy client cf :=
    settled_of_lawful h hpresent hcf
  refine ⟨hsettled, fun hagreeable hcurrent r hr ↦ .inr ?_⟩
  refine h.required set hset (hallowed.mpr ⟨hagreeable, fun cf hcf ↦ ?_⟩) r hr
  by_contra hbehind
  rw [Bool.not_eq_false] at hbehind
  exact hcurrent cf hcf ((isBehind_iff (hsettled cf hcf).uniform).mp hbehind)

/-- The law of the features is kept exactly when a missing feature ends the handshake, or all
features of the client are settled and no required feature is left to nobody. -/
theorem lawful_iff (policy : NegotiationPolicy) (client : Hello) :
    Lawful policy client ↔
      (∃ sf ∈ policy.serverFeatures, isMissing policy client sf = true) ∨
        Ordered policy client := by
  by_cases hmissing : ∃ sf ∈ policy.serverFeatures, isMissing policy client sf = true
  · exact iff_of_true (lawful_of_missing hmissing) (.inl hmissing)
  · have hpresent : ∀ sf ∈ policy.serverFeatures, isMissing policy client sf = false :=
      fun sf hsf ↦ Bool.not_eq_true _ ▸ fun htrue ↦ hmissing ⟨sf, hsf, htrue⟩
    rw [or_iff_right hmissing]
    exact ⟨fun h ↦ ordered_of_lawful h hpresent, fun h ↦ lawful_of_ordered hpresent h⟩

/-- A server that has a feature in two versions, the older one first, and requires one that it does
not have. -/
def twoVersions : NegotiationPolicy :=
  { NegotiationPolicy.default with
    serverFeatures := [⟨"ald", "dui", 1⟩, ⟨"ald", "dui", 3⟩]
    strictRequiredFeatures := [⟨"ald", "voice", 1⟩] }

def between : Hello := ⟨"astryn", "1.0.0", 1, 1, [⟨"ald", "dui", 2⟩], []⟩

theorem two_versions_unlawful :
    ¬ Lawful twoVersions between ∧
      (∃ set, negotiate { twoVersions with serverFeatures := twoVersions.serverFeatures.reverse }
        between = .ok set ∧ set.allowed = true) ∧
      ∃ r ∈ twoVersions.strictRequiredFeatures, between.offers r = false := by
  refine ⟨fun h ↦ ?_, ⟨_, rfl, rfl⟩, _, List.mem_singleton_self _, by decide⟩
  have hpresent : ∀ sf ∈ twoVersions.serverFeatures, isMissing twoVersions between sf = false := by
    decide
  obtain ⟨set, hset, hwritten, -⟩ := negotiate_ok hpresent
  have hselected := (h.selected set hset ⟨"ald", "dui", 2⟩ List.mem_cons_self (by decide)).mpr
    ⟨⟨"ald", "dui", 3⟩, by decide, by decide, by decide⟩
  rw [hwritten] at hselected
  exact absurd hselected (by decide)

end Lawful

end Aldivine.Negotiation.Order
