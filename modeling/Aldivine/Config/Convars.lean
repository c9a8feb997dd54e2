import Aldivine.Config.Normalizing
import Aldivine.Config.Parsing

namespace Aldivine.Config.Convars

open Foundation.Fallible Normalizing NormalizedServerConfig Parsing Std Syntax

variable {cfg : NormalizedServerConfig} {d d' : Directive} {line : BitVec 32}

section Forms

inductive ErrorKind
  | wrongArgCount
  | invalidValue
  | directiveForbiddenInInclude
  | emptySecret
  | secretProvider
deriving DecidableEq

def kindOf : NormalizeError → ErrorKind
  | .wrongArgCount .. => .wrongArgCount
  | .invalidValue .. => .invalidValue
  | .directiveForbiddenInInclude .. => .directiveForbiddenInInclude
  | .emptySecret .. => .emptySecret
  | .secretProvider .. => .secretProvider

def Alike (r r' : Normalized) : Prop := r.mapError kindOf = r'.mapError kindOf

def fieldDirectives : List String :=
  ["sv_hostname", "sv_projectName", "sv_projectDesc", "sv_maxclients", "sv_endpoint", "sv_tags",
    "sv_locale", "sv_icon", "sv_gameBuild", "sv_public", "sv_listing", "ald_projectId",
    "ald_serverId", "ald_licenseKey", "license_mode"]

def endpointDirectives : List String := ["endpoint_add_tcp", "endpoint_add_udp"]

theorem mem_typedDirectives {k : String} :
    k ∈ typedDirectives ↔ k ∈ fieldDirectives ∨ k ∈ endpointDirectives := by
  have hperm : typedDirectives.Perm (fieldDirectives ++ endpointDirectives) := by decide
  exact hperm.mem_iff.trans List.mem_append

theorem applyTyped_congr {k : String} (hk : k ∈ fieldDirectives) (h : one d line = one d' line) :
    cfg.applyTyped d line k = cfg.applyTyped d' line k := by
  simp only [fieldDirectives, List.mem_cons, List.not_mem_nil, or_false] at hk
  rcases hk with rfl | rfl | rfl | rfl | rfl | rfl | rfl | rfl | rfl | rfl | rfl | rfl | rfl | rfl |
    rfl
  all_goals exact congrArg (· >>= _) h

variable {verb : String} {k v : Value} {n n' : ℕ}

theorem one_set (hverb : verb ∈ ["set", "setr", "sets"]) :
    one ⟨verb, [k, v], n⟩ line = .ok v.asStr := by
  rw [one, if_pos hverb]
  rfl

theorem one_bare (hverb : verb ∉ ["set", "setr", "sets"]) :
    one ⟨verb, [v], n⟩ line = .ok v.asStr := by
  rw [one, if_neg hverb]
  rfl

theorem applyDirective_set (hverb : verb ∈ ["set", "setr", "sets"])
    (hk : k.asStr ∈ typedDirectives) :
    cfg.applyDirective ⟨verb, [k, v], n⟩ line = cfg.applyTyped ⟨verb, [k, v], n⟩ line k.asStr := by
  have htyped : isTypedDirective k.asStr = true := decide_eq_true hk
  rw [applyDirective, if_pos hverb]
  exact if_pos htyped

def handledVerbs : List String :=
  ["set", "setr", "sets", "set_secret", "ensure", "start", "stop", "restart", "add_ace",
    "remove_ace", "add_principal", "remove_principal", "endpoint_add_tcp", "endpoint_add_udp",
    "exec"]

theorem applyDirective_bare (hverb : d.verb ∉ handledVerbs) :
    cfg.applyDirective d line = cfg.applyTyped d line d.verb := by
  simp only [handledVerbs, List.mem_cons, List.not_mem_nil, or_false, not_or] at hverb
  simp only [applyDirective, List.mem_cons, List.not_mem_nil, hverb, or_false, if_false]

theorem fieldDirectives_unhandled {k : String} (hk : k ∈ fieldDirectives) : k ∉ handledVerbs := by
  revert k
  decide

/-- Any other name is stored as a convar, without a look at what is stored. -/
theorem applyTyped_convar {k : String} (hk : k ∉ fieldDirectives) (hlicense : k ≠ "sv_licenseKey")
    (d : Directive) : cfg.applyTyped d line k = .ok (match d.firstArg with
      | some v => { cfg with convars := cfg.convars.insert k ⟨.local, v, line⟩ }
      | none => cfg) := by
  unfold applyTyped
  split
  all_goals first
    | exact absurd (by decide) hk
    | exact absurd rfl hlicense
    | (cases d.firstArg <;> rfl)

theorem endpoint_unfielded {k : String} (hk : k ∈ endpointDirectives) :
    k ∉ fieldDirectives ∧ k ≠ "sv_licenseKey" := by
  revert k
  decide

theorem applyDirective_endpoint (hverb : d.verb ∈ endpointDirectives) :
    cfg.applyDirective d line = cfg.applyEndpoint d line := by
  simp only [endpointDirectives, List.mem_cons, List.not_mem_nil, or_false] at hverb
  rcases hverb with hverb | hverb
  · simp [applyDirective, hverb]
  · simp [applyDirective, hverb]

/-- A typed directive is set in both of its forms alike, unless it adds an endpoint. -/
theorem forms_alike_iff (cfg : NormalizedServerConfig) (line : BitVec 32) {verb : String}
    {k : Value} (v : Value) (n n' : ℕ) (hverb : verb ∈ ["set", "setr", "sets"])
    (hk : k.asStr ∈ typedDirectives) :
    Alike (cfg.applyDirective ⟨verb, [k, v], n⟩ line) (cfg.applyDirective ⟨k.asStr, [v], n'⟩ line) ↔
      k.asStr ∉ endpointDirectives := by
  rw [applyDirective_set hverb hk]
  constructor
  · intro halike hendpoint
    obtain ⟨hfield, hlicense⟩ := endpoint_unfielded hendpoint
    rw [applyTyped_convar hfield hlicense, applyDirective_endpoint hendpoint] at halike
    have heq := congrArg (fun r ↦ r.toOption.map endpoints) halike
    have hlonger : cfg.endpoints = cfg.endpoints ++ [_] := Option.some.inj heq
    exact List.cons_ne_nil _ _ (List.self_eq_append_right.mp hlonger)
  · intro hfield
    have hk := (mem_typedDirectives.mp hk).resolve_right hfield
    have hunhandled := fieldDirectives_unhandled hk
    have hbare : k.asStr ∉ ["set", "setr", "sets"] := fun hmem ↦ hunhandled (by
      simp only [handledVerbs, List.mem_cons, List.not_mem_nil, or_false] at hmem ⊢
      tauto)
    rw [applyDirective_bare hunhandled]
    exact congrArg _ (applyTyped_congr hk ((one_set hverb).trans (one_bare hbare).symm))

theorem maxclients_alike :
    Alike
      (NormalizedServerConfig.default.applyDirective
        ⟨"set", [.bare "sv_maxclients", .quoted "48"], 2⟩ 3)
      (NormalizedServerConfig.default.applyDirective ⟨"sv_maxclients", [.quoted "48"], 1⟩ 3) :=
  (forms_alike_iff .default 3 (.quoted "48") 2 1 (by decide) (by decide)).mpr (by decide)

/-- The convar form of an endpoint stores a convar, whose value is its own name. -/
theorem endpoint_unlike :
    NormalizedServerConfig.default.applyDirective
        ⟨"set", [.bare "endpoint_add_tcp", .quoted "0.0.0.0:30120"], 2⟩ 3 =
      .ok { NormalizedServerConfig.default with
        convars := (∅ : ExtTreeMap String Convar).insert "endpoint_add_tcp"
          ⟨.local, "endpoint_add_tcp", 3⟩ } ∧
    NormalizedServerConfig.default.applyDirective
        ⟨"endpoint_add_tcp", [.quoted "0.0.0.0:30120"], 1⟩ 3 =
      .ok { NormalizedServerConfig.default with endpoints := [⟨"0.0.0.0:30120", .tcp, 3⟩] } ∧
    ¬Alike
      (NormalizedServerConfig.default.applyDirective
        ⟨"set", [.bare "endpoint_add_tcp", .quoted "0.0.0.0:30120"], 2⟩ 3)
      (NormalizedServerConfig.default.applyDirective
        ⟨"endpoint_add_tcp", [.quoted "0.0.0.0:30120"], 1⟩ 3) := by
  refine ⟨rfl, rfl, ?_⟩
  intro halike
  have heq := congrArg (fun r ↦ r.toOption.map endpoints) halike
  cases heq

end Forms

section Scopes

/-- The convar that `apply_convar` declares, once the scope is checked. -/
def declared (d : Directive) : Option (String × ConvarScope) :=
  if d.verb ∈ ["set", "setr", "sets"] then
    match kv d with
    | some (k, _) => if isTypedDirective k then none else some (k, scopeOf d.verb)
    | none => none
  else none

/-- The convar that `apply_typed` stores unchecked, with the scope it is written with: that of the
verb if there is one. -/
def unchecked (d : Directive) : Option (String × ConvarScope) :=
  if d.verb ∈ ["set", "setr", "sets"] then
    match kv d with
    | some (k, _) => if k ∈ endpointDirectives then some (k, scopeOf d.verb) else none
    | none => none
  else if d.verb ∈ handledVerbs ∨ d.verb ∈ fieldDirectives ∨ d.verb = "sv_licenseKey" then none
  else d.firstArg.map (fun _ ↦ (d.verb, .local))

def written (d : Directive) : Option (String × ConvarScope) := (declared d).or (unchecked d)

inductive Effect (m : ExtTreeMap String Convar) (d : Directive) (line : BitVec 32) :
    ExtTreeMap String Convar → Prop
  | declares {k : String} {s : ConvarScope} (v : String) (hd : declared d = some (k, s))
      (hs : ∀ c, m[k]? = some c → c.scope = s) : Effect m d line (m.insert k ⟨s, v, line⟩)
  | stores {k : String} {s : ConvarScope} (v : String) (hd : declared d = none)
      (hs : unchecked d = some (k, s)) (hlocal : k ∈ endpointDirectives ∨ s = .local) :
      Effect m d line (m.insert k ⟨.local, v, line⟩)
  | keeps (hw : written d = none) : Effect m d line m

variable {cfg' : NormalizedServerConfig} {k : String}

theorem applyTyped_field (hk : k ∈ fieldDirectives ∨ k = "sv_licenseKey")
    (h : cfg.applyTyped d line k = .ok cfg') : cfg'.convars = cfg.convars := by
  simp only [fieldDirectives, List.mem_cons, List.not_mem_nil, or_false, or_assoc] at hk
  rcases hk with rfl | rfl | rfl | rfl | rfl | rfl | rfl | rfl | rfl | rfl | rfl | rfl | rfl | rfl |
    rfl | rfl
  all_goals
    obtain ⟨_, _, h⟩ := bind_eq_ok.mp h
    first
      | obtain ⟨_, _, ⟨⟩⟩ := bind_eq_ok.mp h
        rfl
      | cases h
        rfl

theorem applyConvar_eq_ok (h : cfg.applyConvar d line = .ok cfg') :
    ∃ k v, kv d = some (k, v) ∧ (∀ c, cfg.convars[k]? = some c → c.scope = scopeOf d.verb) ∧
      cfg'.convars = cfg.convars.insert k ⟨scopeOf d.verb, v, line⟩ := by
  obtain ⟨⟨k, v⟩, hkv, h⟩ := bind_eq_ok.mp h
  refine ⟨k, v, okOr_eq_ok.mp hkv, ?_⟩
  cases hget : cfg.convars[k]? with
  | none =>
    simp only [hget] at h
    cases h
    exact ⟨nofun, rfl⟩
  | some existing =>
    simp only [hget] at h
    obtain ⟨hscope, h⟩ := check_bind_eq_ok.mp h
    cases h
    refine ⟨fun c hc ↦ ?_, rfl⟩
    cases hc
    exact not_not.mp (refuse_eq_ok.mp hscope)

theorem applySecret_eq_ok (h : cfg.applySecret d line = .ok cfg') :
    cfg'.convars = cfg.convars := by
  obtain ⟨_, _, h⟩ := bind_eq_ok.mp h
  obtain ⟨_, _, ⟨⟩⟩ := bind_eq_ok.mp h
  rfl

theorem applyResource_eq_ok (h : cfg.applyResource d line = .ok cfg') :
    cfg'.convars = cfg.convars := by
  obtain ⟨_, _, ⟨⟩⟩ := bind_eq_ok.mp h
  rfl

theorem applyAce_eq_ok (h : cfg.applyAce d line = .ok cfg') : cfg'.convars = cfg.convars := by
  unfold applyAce at h
  split at h
  · obtain ⟨_, _, ⟨⟩⟩ := bind_eq_ok.mp h
    rfl
  · cases h

theorem applyPrincipal_eq_ok (h : cfg.applyPrincipal d line = .ok cfg') :
    cfg'.convars = cfg.convars := by
  obtain ⟨_, _, ⟨⟩⟩ := bind_eq_ok.mp h
  rfl

theorem applyEndpoint_eq_ok (h : cfg.applyEndpoint d line = .ok cfg') :
    cfg'.convars = cfg.convars := by
  obtain ⟨_, _, ⟨⟩⟩ := bind_eq_ok.mp h
  rfl

theorem applyDirective_handled (hset : d.verb ∉ ["set", "setr", "sets"])
    (hverb : d.verb ∈ handledVerbs) (h : cfg.applyDirective d line = .ok cfg') :
    cfg'.convars = cfg.convars := by
  rw [applyDirective, if_neg hset] at h
  split at h
  · exact applySecret_eq_ok h
  split at h
  · exact applyResource_eq_ok h
  split at h
  · exact applyAce_eq_ok h
  split at h
  · exact applyPrincipal_eq_ok h
  split at h
  · exact applyEndpoint_eq_ok h
  split at h
  · cases h
  · simp only [handledVerbs, List.mem_cons, List.not_mem_nil, or_false] at *
    tauto

theorem firstArg_of_kv {v : String} (h : kv d = some (k, v)) : d.firstArg = some k := by
  unfold kv at h
  split at h
  · rename_i hargs
    cases h
    rw [Directive.firstArg, hargs]
    rfl
  · cases h

theorem effect_set (hset : d.verb ∈ ["set", "setr", "sets"])
    (h : cfg.applyDirective d line = .ok cfg') : Effect cfg.convars d line cfg'.convars := by
  rw [applyDirective, if_pos hset] at h
  cases hkv : kv d with
  | none =>
    rw [hkv] at h
    obtain ⟨k, v, hkv', _⟩ := applyConvar_eq_ok h
    cases hkv.symm.trans hkv'
  | some kv =>
    obtain ⟨k, v⟩ := kv
    simp only [hkv] at h
    split at h
    · rename_i htyped
      have hdeclared : declared d = none := by simp [declared, hset, hkv, htyped]
      by_cases hendpoint : k ∈ endpointDirectives
      · obtain ⟨hfield, hlicense⟩ := endpoint_unfielded hendpoint
        rw [applyTyped_convar hfield hlicense, firstArg_of_kv hkv] at h
        cases h
        exact .stores k hdeclared (by simp [unchecked, hset, hkv, hendpoint]; rfl) (.inl hendpoint)
      · have hfield := (mem_typedDirectives.mp (of_decide_eq_true htyped)).resolve_right hendpoint
        rw [applyTyped_field (.inl hfield) h]
        have hunchecked : unchecked d = none := by simp [unchecked, hset, hkv, hendpoint]
        exact .keeps (by simp [written, hdeclared, hunchecked])
    · rename_i htyped
      obtain ⟨k', v', hkv', hscope, hconvars⟩ := applyConvar_eq_ok h
      cases hkv.symm.trans hkv'
      rw [hconvars]
      exact .declares v (by simp [declared, hset, hkv, htyped]) hscope

theorem effect_bare (hset : d.verb ∉ ["set", "setr", "sets"])
    (h : cfg.applyDirective d line = .ok cfg') : Effect cfg.convars d line cfg'.convars := by
  have hdeclared : declared d = none := by rw [declared, if_neg hset]
  by_cases hverb : d.verb ∈ handledVerbs
  · rw [applyDirective_handled hset hverb h]
    have hunchecked : unchecked d = none := by rw [unchecked, if_neg hset, if_pos (.inl hverb)]
    exact .keeps (by rw [written, hdeclared, hunchecked]; rfl)
  rw [applyDirective_bare hverb] at h
  by_cases hfield : d.verb ∈ fieldDirectives ∨ d.verb = "sv_licenseKey"
  · rw [applyTyped_field hfield h]
    have hunchecked : unchecked d = none := by rw [unchecked, if_neg hset, if_pos (.inr hfield)]
    exact .keeps (by rw [written, hdeclared, hunchecked]; rfl)
  obtain ⟨hunfielded, hlicense⟩ := not_or.mp hfield
  rw [applyTyped_convar hunfielded hlicense] at h
  have hunchecked : unchecked d = d.firstArg.map (fun _ ↦ (d.verb, .local)) := by
    rw [unchecked, if_neg hset, if_neg (not_or.mpr ⟨hverb, hfield⟩)]
  cases harg : d.firstArg with
  | none =>
    rw [harg] at h hunchecked
    cases h
    exact .keeps (by rw [written, hdeclared, hunchecked]; rfl)
  | some v =>
    rw [harg] at h hunchecked
    cases h
    exact .stores v hdeclared hunchecked (.inr rfl)

theorem effect_of_applyDirective (h : cfg.applyDirective d line = .ok cfg') :
    Effect cfg.convars d line cfg'.convars := by
  by_cases hset : d.verb ∈ ["set", "setr", "sets"]
  · exact effect_set hset h
  · exact effect_bare hset h

/-- Every write so far gave its convar the scope that it has now; an endpoint directive in its convar
form is stored as a local one in any case. -/
def Held (m : ExtTreeMap String Convar) (before : List (BitVec 32 × Directive)) : Prop :=
  ∀ x ∈ before, ∀ k s, written x.2 = some (k, s) → k ∉ endpointDirectives →
    m[k]?.map Convar.scope = some s

/-- The write of `y` does not go unchecked over another scope of `x`. -/
def Respects (x y : BitVec 32 × Directive) : Prop :=
  ∀ k s s', unchecked y.2 = some (k, s) → written x.2 = some (k, s') → s' = s

def SingleScope (doc : Document) : Prop :=
  ∀ x ∈ directives doc, ∀ y ∈ directives doc, ∀ k s s',
    written x.2 = some (k, s) → written y.2 = some (k, s') → s = s'

theorem written_eq_some {s : ConvarScope} :
    written d = some (k, s) ↔
      declared d = some (k, s) ∨ declared d = none ∧ unchecked d = some (k, s) :=
  Option.or_eq_some_iff

theorem declared_of_unchecked {x : String × ConvarScope} (h : unchecked d = some x) :
    declared d = none := by
  by_cases hset : d.verb ∈ ["set", "setr", "sets"]
  · rw [unchecked, if_pos hset] at h
    rw [declared, if_pos hset]
    cases hkv : kv d with
    | none => rfl
    | some kv =>
      simp only [hkv] at h
      split at h
      · rename_i hendpoint
        exact if_pos (decide_eq_true (mem_typedDirectives.mpr (.inr hendpoint)))
      · cases h
  · rw [declared, if_neg hset]

theorem written_of_unchecked {x : String × ConvarScope} (h : unchecked d = some x) :
    written d = some x :=
  written_eq_some.mpr (.inr ⟨declared_of_unchecked h, h⟩)

theorem unchecked_of_endpoint {s : ConvarScope} (h : written d = some (k, s))
    (hk : k ∈ endpointDirectives) : unchecked d = some (k, s) := by
  rcases written_eq_some.mp h with hdeclared | ⟨-, hunchecked⟩
  · unfold declared at hdeclared
    split at hdeclared
    · split at hdeclared
      · split at hdeclared
        · cases hdeclared
        · rename_i htyped
          cases hdeclared
          exact absurd (decide_eq_true (mem_typedDirectives.mpr (.inr hk))) htyped
      · cases hdeclared
    · cases hdeclared
  · exact hunchecked

variable {m m' : ExtTreeMap String Convar} {before : List (BitVec 32 × Directive)}
  {x : BitVec 32 × Directive} {s : ConvarScope}

theorem held_insert (hheld : Held m before) (hw : written x.2 = some (k, s)) (c : Convar)
    (hscope : k ∉ endpointDirectives → c.scope = s)
    (hsame : k ∉ endpointDirectives → ∀ y ∈ before, ∀ s', written y.2 = some (k, s') → s' = s) :
    Held (m.insert k c) (before ++ [x]) := by
  intro y hy k' s' hy' hk'
  rw [ExtTreeMap.getElem?_insert]
  split
  · rename_i heq
    cases Std.compare_eq_iff_eq.mp heq
    rw [Option.map_some, hscope hk']
    rcases List.mem_append.mp hy with hy | hy
    · rw [hsame hk' y hy s' hy']
    · cases List.mem_singleton.mp hy
      cases hw.symm.trans hy'
      rfl
  · rename_i hne
    rcases List.mem_append.mp hy with hy | hy
    · exact hheld y hy k' s' hy' hk'
    · cases List.mem_singleton.mp hy
      cases hw.symm.trans hy'
      exact absurd (Std.compare_eq_iff_eq.mpr rfl) hne

theorem held_step (hheld : Held m before) (heffect : Effect m x.2 line m')
    (hrespects : ∀ y ∈ before, Respects y x) : Held m' (before ++ [x]) := by
  cases heffect with
  | declares v hd hs =>
    refine held_insert hheld (written_eq_some.mpr (.inl hd)) _ (fun _ ↦ rfl) ?_
    intro hk y hy s' hy'
    obtain ⟨c, hc, rfl⟩ := Option.map_eq_some_iff.mp (hheld y hy _ s' hy' hk)
    exact hs c hc
  | stores v hd hs hlocal =>
    refine held_insert hheld (written_of_unchecked hs) _ (fun hk ↦ ?_) ?_
    · exact (hlocal.resolve_left hk).symm
    · intro hk y hy s' hy'
      exact hrespects y hy _ _ s' hs hy'
  | keeps hw =>
    intro y hy k' s' hy'
    rcases List.mem_append.mp hy with hy | hy
    · exact hheld y hy k' s' hy'
    · cases List.mem_singleton.mp hy
      cases hw.symm.trans hy'

theorem held_run {after : List (BitVec 32 × Directive)} (hheld : Held cfg.convars before)
    (h : after.foldlM (fun cfg x ↦ cfg.applyDirective x.2 x.1) cfg = .ok cfg')
    (hrespects : (before ++ after).Pairwise Respects) : Held cfg'.convars (before ++ after) := by
  induction after generalizing before cfg with
  | nil =>
    cases h
    rwa [List.append_nil]
  | cons x after ih =>
    rw [List.foldlM_cons] at h
    obtain ⟨next, hnext, h⟩ := bind_eq_ok.mp h
    have hbefore : ∀ y ∈ before, Respects y x := fun y hy ↦
      (List.pairwise_append.mp hrespects).2.2 y hy x List.mem_cons_self
    have hstep := held_step hheld (effect_of_applyDirective hnext) hbefore
    have heq : before ++ x :: after = before ++ [x] ++ after := by simp
    rw [heq] at hrespects ⊢
    exact ih hstep h hrespects

/-- Neither of two writes of an endpoint directive in its convar form is checked. -/
theorem single_of_endpoint {l : List (BitVec 32 × Directive)} (h : l.Pairwise Respects)
    (hk : k ∈ endpointDirectives) :
    ∀ x ∈ l, ∀ y ∈ l, ∀ s s', written x.2 = some (k, s) → written y.2 = some (k, s') → s = s' := by
  intro x hx y hy
  refine List.Pairwise.forall_of_forall_of_flip (R := fun x y ↦ ∀ s s',
    written x.2 = some (k, s) → written y.2 = some (k, s') → s = s') ?_ ?_ ?_ hx hy
  · intro x _ s s' hs hs'
    cases hs.symm.trans hs'
    rfl
  · refine h.imp (fun hrespects s s' hs hs' ↦ ?_)
    exact hrespects k s' s (unchecked_of_endpoint hs' hk) hs
  · refine h.imp (fun hrespects s s' hs hs' ↦ ?_)
    exact (hrespects k s s' (unchecked_of_endpoint hs hk) hs').symm

/-- An accepted document writes every convar with one scope, unless a bare line stands below a `setr`
or `sets` line of the same name, or an endpoint directive is set with two verbs. -/
theorem singleScope_iff {environment : String → Option String} {doc : Document}
    (h : fromDocument environment doc = .ok cfg) :
    SingleScope doc ↔ (directives doc).Pairwise Respects := by
  constructor
  · intro hsingle
    refine List.pairwise_of_forall_mem_list (fun x hx y hy k s s' hunchecked hwritten ↦ ?_)
    exact hsingle x hx y hy k s' s hwritten (written_of_unchecked hunchecked)
  · intro hrespects x hx y hy k s s' hx' hy'
    by_cases hk : k ∈ endpointDirectives
    · exact single_of_endpoint hrespects hk x hx y hy s s' hx' hy'
    obtain ⟨cfg', hrun, _⟩ := bind_eq_ok.mp h
    have hheld : Held cfg'.convars ([] ++ directives doc) := held_run nofun hrun hrespects
    have hx := hheld x hx k s hx' hk
    have hy := hheld y hy k s' hy' hk
    exact Option.some.inj (hx.symm.trans hy)

def overwritten : Document where
  source := "server.cfg"
  lines :=
    [⟨1, "", .directive ⟨"set", [.bare "a", .bare "1"], 2⟩⟩,
      ⟨2, "", .directive ⟨"a", [.bare "2"], 1⟩⟩]

theorem overwritten_eq_ok : fromDocument (fun _ ↦ none) overwritten =
    .ok { NormalizedServerConfig.default with convars :=
      ((∅ : ExtTreeMap String Convar).insert "a" ⟨.local, "1", 1⟩).insert "a" ⟨.local, "2", 2⟩ } :=
  rfl

theorem overwritten_singleScope : SingleScope overwritten := by
  refine (singleScope_iff overwritten_eq_ok).mpr (List.pairwise_pair.mpr ?_)
  intro k s s' hunchecked hwritten
  cases hunchecked
  cases hwritten
  rfl

def shadowed : Document where
  source := "server.cfg"
  lines :=
    [⟨1, "", .directive ⟨"setr", [.bare "a", .bare "1"], 2⟩⟩,
      ⟨2, "", .directive ⟨"a", [.bare "2"], 1⟩⟩]

def shadowedConfig : NormalizedServerConfig :=
  { NormalizedServerConfig.default with convars :=
    ((∅ : ExtTreeMap String Convar).insert "a" ⟨.replicated, "1", 1⟩).insert "a" ⟨.local, "2", 2⟩ }

theorem shadowed_accepted :
    parseDocument (fun _ ↦ none) ⟨.enabled, false⟩ "server.cfg" "setr a 1\na 2" = .ok shadowed ∧
      fromDocument (fun _ ↦ none) shadowed = .ok shadowedConfig ∧ ¬SingleScope shadowed := by
  refine ⟨toOption_eq_some.mp (by decide +kernel), rfl, ?_⟩
  intro hsingle
  have hsame := hsingle _ List.mem_cons_self _ (List.mem_cons_of_mem _ List.mem_cons_self) "a"
    .replicated .local rfl rfl
  cases hsame

end Scopes

end Aldivine.Config.Convars
