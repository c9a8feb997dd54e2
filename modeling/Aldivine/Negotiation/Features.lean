import Aldivine.Negotiation.Protocols
import Std.Data.String.ToNat

namespace Aldivine.Negotiation.Features

open Std Model Protocols Foundation.Fallible Foundation.Table

variable {policy : NegotiationPolicy} {client : Hello} {cf sf : FeatureId}

/-- What an entry of the server makes of a feature of the client. -/
def answer (cf sf : FeatureId) : FeatureOutcome :=
  if sf.version ≥ cf.version then .selected cf else .requiresServerUpdate sf

/-- The outcome that the first loop writes down for a feature of the client. -/
def outcome (policy : NegotiationPolicy) (cf : FeatureId) : FeatureOutcome :=
  if policy.isDisabled cf then .disabledByPolicy cf
  else
    ((policy.serverFeatures.find? (·.sameFeature cf)).map (answer cf)).getD
      (.clientOnlyUnsupported cf)

/-- The feature is a problem: the entry found for it is older. -/
def isBehind (policy : NegotiationPolicy) (cf : FeatureId) : Bool :=
  !policy.isDisabled cf &&
    (policy.serverFeatures.find? (·.sameFeature cf)).any (fun sf ↦ sf.version < cf.version)

/-- The handshake ends at this entry of the server. -/
def isMissing (policy : NegotiationPolicy) (client : Hello) (sf : FeatureId) : Bool :=
  !client.offers sf && policy.strictRequiredFeatures.any (·.sameFeature sf)

def written (policy : NegotiationPolicy) (client : Hello) (k : String) : Option FeatureOutcome :=
  (((policy.serverFeatures.filter (fun sf ↦ !client.offers sf)).reverse.find?
      (fun sf ↦ decide (sf.key = k))).map .requiresClientUpdate).or
    ((client.features.reverse.find? (fun cf ↦ decide (cf.key = k))).map (outcome policy))

section Loops

theorem ask_eq (features : ExtTreeMap String FeatureOutcome) (problems : List String)
    (cf : FeatureId) :
    ask policy (features, problems) cf =
      (features.insert cf.key (outcome policy cf),
        if isBehind policy cf then problems ++ ["feature " ++ cf.key ++ " needs server update"]
        else problems) := by
  unfold ask outcome isBehind
  cases policy.isDisabled cf with
  | true => rfl
  | false =>
    cases policy.serverFeatures.find? (·.sameFeature cf) with
    | none => rfl
    | some sf =>
      by_cases hversion : sf.version ≥ cf.version
      · simp [answer, hversion]
      · simp [answer, hversion]

theorem foldl_ask (l : List FeatureId) (acc : ExtTreeMap String FeatureOutcome × List String) :
    (l.foldl (ask policy) acc).1 =
        l.foldl (fun m cf ↦ m.insert cf.key (outcome policy cf)) acc.1 ∧
      (l.foldl (ask policy) acc).2.isEmpty =
        (acc.2.isEmpty && l.all (fun cf ↦ !isBehind policy cf)) := by
  induction l generalizing acc with
  | nil => simp
  | cons cf l ih =>
    obtain ⟨features, problems⟩ := acc
    obtain ⟨hfeatures, hproblems⟩ := ih (ask policy (features, problems) cf)
    rw [List.foldl_cons, hfeatures, hproblems, ask_eq, List.foldl_cons, List.all_cons]
    refine ⟨rfl, ?_⟩
    cases isBehind policy cf with
    | true => simp
    | false => simp

theorem offer_of_not_missing (features : ExtTreeMap String FeatureOutcome)
    (h : isMissing policy client sf = false) :
    offer policy client features sf =
      .ok (if client.offers sf then features
        else features.insert sf.key (.requiresClientUpdate sf)) := by
  unfold offer
  unfold isMissing at h
  cases hoffers : client.offers sf with
  | true => rfl
  | false =>
    rw [hoffers, Bool.not_false, Bool.true_and] at h
    simp [h]

theorem foldlM_offer {l : List FeatureId} (h : ∀ sf ∈ l, isMissing policy client sf = false)
    (features : ExtTreeMap String FeatureOutcome) :
    l.foldlM (offer policy client) features =
      .ok ((l.filter (fun sf ↦ !client.offers sf)).foldl
        (fun m sf ↦ m.insert sf.key (.requiresClientUpdate sf)) features) := by
  induction l generalizing features with
  | nil => rfl
  | cons sf l ih =>
    obtain ⟨hsf, hl⟩ := List.forall_mem_cons.mp h
    rw [List.foldlM_cons, offer_of_not_missing features hsf]
    refine (ih hl _).trans ?_
    cases hoffers : client.offers sf with
    | true => simp [hoffers]
    | false => simp [hoffers]

theorem foldlM_offer_missing {l : List FeatureId} (h : ∃ sf ∈ l, isMissing policy client sf = true)
    (features : ExtTreeMap String FeatureOutcome) :
    ∃ sf, l.foldlM (offer policy client) features = .error (.requiredFeatureMissing sf) := by
  induction l generalizing features with
  | nil => simp at h
  | cons sf l ih =>
    cases hsf : isMissing policy client sf with
    | true =>
      obtain ⟨hoffers, hrequired⟩ := Bool.and_eq_true_iff.mp hsf
      rw [Bool.not_eq_true'] at hoffers
      refine ⟨sf, ?_⟩
      rw [List.foldlM_cons, offer, hoffers, hrequired]
      rfl
    | false =>
      rw [List.foldlM_cons, offer_of_not_missing features hsf]
      exact ih (by simpa [hsf] using h) _

theorem negotiate_missing (h : ∃ sf ∈ policy.serverFeatures, isMissing policy client sf = true) :
    ∃ sf, negotiate policy client = .error (.requiredFeatureMissing sf) := by
  obtain ⟨protocol, hprotocol⟩ := negotiateProtocol_isOk policy client
  obtain ⟨sf, hsf⟩ := foldlM_offer_missing h (client.features.foldl (ask policy) (∅, [])).1
  refine ⟨sf, ?_⟩
  rw [negotiate, hprotocol]
  simp only [bind, Except.bind, hsf]

theorem negotiate_ok (h : ∀ sf ∈ policy.serverFeatures, isMissing policy client sf = false) :
    ∃ set, negotiate policy client = .ok set ∧
      (∀ k : String, set.features[k]? = written policy client k) ∧
      (set.allowed = true ↔
        Agreeable policy client ∧ ∀ cf ∈ client.features, isBehind policy cf = false) := by
  obtain ⟨protocol, hprotocol⟩ := negotiateProtocol_isOk policy client
  obtain ⟨hfeatures, hproblems⟩ := @foldl_ask policy client.features (∅, [])
  have hoffers := foldlM_offer h (client.features.foldl (ask policy) (∅, [])).1
  rw [negotiate, hprotocol]
  simp only [bind, Except.bind, hoffers]
  refine ⟨_, rfl, fun k ↦ ?_, ?_⟩
  · dsimp only
    rw [getElem?_foldl_insert, hfeatures, getElem?_foldl_insert, ExtTreeMap.getElem?_empty,
      Option.or_none]
    rfl
  · dsimp only
    rw [hproblems, Bool.and_eq_true_iff, isAgreed_iff hprotocol]
    simp

end Loops

end Aldivine.Negotiation.Features
