import BuildAnalysis.Proofs.Analysis.Aspects
import BuildAnalysis.Proofs.Analysis.Loading

/-!
# Successful evaluations

A cached value of a target of a rule tells what its evaluation went through: the conditions turned
out, the dependencies were found, and the implementation of the rule ended without errors.
-/
namespace BuildAnalysis

open Engine (Store)

variable {services : Services} {st : Store analysisSpace} {f f' : Findings}
  {ks : List AnalysisKey}

namespace EdgeSource

variable {s : EdgeSource}

theorem yields_applyAspects_of_none {deps : List Dependency} {values values' : List AnalyzedTarget}
    (hnone : ∀ d ∈ deps, d.aspects = [])
    (h : Staged.Yields st f (s.applyAspects deps values) (.ok values') f' ks) :
    values' = values := by
  unfold applyAspects at h
  have hkeys : ((deps.zip values).map fun e => (e.2, AspectKey.ofDependency e.1 e.2)).flatMap
      Prod.snd = [] := by
    refine List.flatMap_eq_nil_iff.mpr fun p hp => ?_
    obtain ⟨e, he, rfl⟩ := List.mem_map.mp hp
    simp [AspectKey.ofDependency, hnone e.1 (List.of_mem_zip he).1]
  dsimp only at h
  rw [hkeys] at h
  exact Except.ok.inj (Staged.Yields.of_pure h).1

/-- What the dependencies of a bundle went through. -/
theorem yields_bundle_ok {b : DependencyBundle}
    (h : Staged.Yields st f s.bundle (.ok b) f' ks) :
    ∃ es nodes deps values values', s.edges = .ok es ∧
      (nodes.map Prod.fst).Sublist es ∧ (∀ n ∈ nodes, TargetAt st n.1.label n.2) ∧
      (∃ f₁ f₂ ks₁, Staged.Yields st f₁ (s.dependencies nodes) (.ok deps) f₂ ks₁) ∧
      List.Forall₂ (Batch.Analyzed st) deps values ∧
      (∃ f₁ f₂ ks₁, Staged.Yields st f₁ (s.applyAspects deps values) (.ok values') f₂ ks₁) ∧
      b.entries = deps.zip values' := by
  obtain ⟨es, _, _, _, hes, h, _⟩ := h.of_bind_ok
  obtain ⟨nodes, _, _, _, hnodes, h, _⟩ := h.of_bind_ok
  obtain ⟨deps, _, _, _, hdeps, h, _⟩ := h.of_bind_ok
  obtain ⟨values, _, _, _, hvalues, h, _⟩ := h.of_bind_ok
  obtain ⟨values', _, _, _, haspects, h, _⟩ := h.of_bind_ok
  obtain rfl := Except.ok.inj h.of_pure.1
  obtain ⟨hsub, hnodes⟩ := yields_loadTargets_ok hnodes
  exact ⟨es, nodes, deps, values, values', hes.of_ofExcept.1.symm, hsub, hnodes,
    ⟨_, _, _, hdeps⟩, Batch.yields_resolve_ok hvalues, ⟨_, _, _, haspects⟩, rfl⟩

end EdgeSource

namespace TargetKey

variable {k : TargetKey}

theorem yields_runImplementation_ok {i : RuleImplementation} {c : RuleContext} {out : RuleOutput}
    (h : Staged.Yields st f (k.runImplementation i c) (.ok out) f' ks) :
    ∃ events ks₁, Staged.Yields st [] (i c) (.ok out) events ks₁ ∧ Event.errors events = [] := by
  obtain ⟨⟨result, events⟩, es, _, _, hrequest, h, _⟩ := Staged.Yields.of_request_bind h
  cases result with
  | ok out' =>
      obtain ⟨_, _, _, _, _, h, _⟩ := h.of_bind_ok
      dsimp only at h
      split at h
      next hnone =>
        obtain rfl := Except.ok.inj (Staged.Yields.of_pure h).1
        exact ⟨events, _, ⟨es, hrequest⟩, List.isEmpty_iff.mp hnone⟩
      next => cases (Staged.Yields.of_throw h).1
  | error e =>
      dsimp only at h
      split at h
      next =>
        obtain ⟨_, _, _, _, _, h, _⟩ := h.of_bind_ok
        cases (Staged.Yields.of_throw h).1
      next =>
        obtain ⟨_, _, _, _, _, h, _⟩ := h.of_bind_ok
        cases (Staged.Yields.of_throw h).1

theorem yields_build_ok {loaded : Loaded} {conditions : Conditions}
    {contexts : Option ToolchainContexts} {deps : DependencyBundle} {v : TargetValue} {rule : Rule}
    (hrule : loaded.target.rule? = some rule)
    (h : Staged.Yields st f (k.build services loaded conditions contexts deps) (.ok v) f' ks) :
    ∃ i c out events ks₁, services.implementations.rule? rule.id = some i ∧
      c.target = loaded.target ∧ c.configuration = loaded.configuration ∧
      c.conditions = conditions ∧ Staged.Yields st [] (i c) (.ok out) events ks₁ ∧
      Event.errors events = [] ∧ k.valueOf deps out = .ok v := by
  unfold build at h
  rw [hrule] at h
  dsimp only at h
  split at h
  next => cases (Staged.Yields.of_throw h).1
  next i hi =>
    obtain ⟨toolchains, _, _, _, _, h, _⟩ := h.of_bind_ok
    obtain ⟨out, _, _, _, hout, h, _⟩ := h.of_bind_ok
    obtain ⟨events, _, hout, hnone⟩ := yields_runImplementation_ok hout
    exact ⟨i, _, out, events, _, hi, rfl, rfl, rfl, hout, hnone, h.of_ofExcept.1.symm⟩

/-- A value is built for the target itself or is that of a dependency. -/
theorem yields_build_label {loaded : Loaded} {conditions : Conditions}
    {contexts : Option ToolchainContexts} {deps : DependencyBundle} {v : TargetValue}
    (h : Staged.Yields st f (k.build services loaded conditions contexts deps) (.ok v) f' ks) :
    v.label = k.label ∨ ∃ e ∈ deps.entries, v.label = e.2.label := by
  cases hrule : loaded.target.rule? with
  | none =>
      unfold build at h
      rw [hrule] at h
      obtain ⟨rfl, _, _⟩ := Staged.Yields.of_pure_ok h
      exact .inl rfl
  | some rule =>
      obtain ⟨_, _, out, _, _, _, _, _, _, _, _, hvalue⟩ := yields_build_ok hrule h
      cases out with
      | providers p =>
          obtain rfl := Except.ok.inj hvalue
          exact .inl rfl
      | standsFor actual =>
          simp only [valueOf] at hvalue
          split at hvalue
          next e he =>
            obtain rfl := Except.ok.inj hvalue
            exact .inr ⟨e, List.mem_of_find?_eq_some he, rfl⟩
          next => cases hvalue

theorem yields_consult_ok {loaded : Loaded} {conditions : Conditions}
    (h : Staged.Yields st f (k.consult loaded) (.ok conditions) f' ks) :
    ∃ ks₁, Staged.Yields st f (Conditions.ofTarget loaded.target loaded.configuration)
      (.ok conditions) f' ks₁ := by
  obtain ⟨conditions', f₁, ks₁, _, hconditions, h, _⟩ := h.of_bind_ok
  have h := Staged.Yields.of_get_bind h
  split at h
  next => cases (Staged.Yields.of_throw_bind (Staged.Yields.of_get_bind h)).1
  next =>
    obtain ⟨rfl, rfl, _⟩ := Staged.Yields.of_pure_ok h
    exact ⟨_, hconditions⟩

theorem yields_gather_ok {loaded : Loaded} {conditions : Conditions}
    {contexts : Option ToolchainContexts} {deps : DependencyBundle}
    (h : Staged.Yields st f (k.gather loaded conditions contexts) (.ok deps) f' ks) :
    (∃ ks₁, Staged.Yields st f (edgeSource loaded conditions contexts).bundle (.ok deps) f' ks₁) ∧
      f'.causes.isEmpty = true := by
  obtain ⟨bundle, f₁, ks₁, _, hbundle, h, _⟩ := h.of_bind_ok
  have h := Staged.Yields.of_get_bind h
  split at h
  next => cases (Staged.Yields.of_throw_bind (Staged.Yields.of_get_bind h)).1
  next hnone =>
    obtain ⟨rfl, rfl, _⟩ := Staged.Yields.of_pure_ok h
    exact ⟨⟨_, hbundle⟩, by simpa using hnone⟩

/-- What a successful evaluation went through; it ended early with an empty value if the
configuration does not fit the target. -/
theorem yields_evaluate_ok {v : TargetValue}
    (h : Staged.Yields st f (k.evaluate services) (.ok v) f' ks) :
    ∃ loaded f₁, (∃ ks, Staged.Yields st f k.load (.ok loaded) f₁ ks) ∧
      if loaded.target.isConfigurable != loaded.configuration.isSome then
        v = .empty k.label k.configuration
      else ∃ contexts conditions deps value f₂ f₃ f₄,
        (∃ ks, Staged.Yields st f₁ (k.toolchains loaded) (.ok contexts) f₂ ks) ∧
        (∃ ks, Staged.Yields st f₂ (Conditions.ofTarget loaded.target loaded.configuration)
          (.ok conditions) f₃ ks) ∧
        (∃ ks, Staged.Yields st f₃ (edgeSource loaded conditions contexts).bundle (.ok deps)
          f₄ ks) ∧
        f₄.causes.isEmpty = true ∧
        (∃ ks, Staged.Yields st f₄ (k.build services loaded conditions contexts deps) (.ok value)
          f' ks) ∧
        v = { value with
          dependencies := deps.keys, toolchains := f'.toolchains, packages := f'.packages } := by
  rw [evaluate_eq] at h
  obtain ⟨loaded, f₁, _, _, hload, h, _⟩ := h.of_bind_ok
  refine ⟨loaded, f₁, ⟨_, hload⟩, ?_⟩
  split at h
  next hmisfit =>
    rw [if_pos hmisfit]
    obtain ⟨_, _, _, _, _, h, _⟩ := Staged.Yields.of_request_bind h
    exact (Staged.Yields.of_pure_ok h).1
  next hfits =>
    rw [if_neg hfits]
    obtain ⟨contexts, f₂, _, _, hcontexts, h, _⟩ := h.of_bind_ok
    obtain ⟨conditions, f₃, _, _, hconditions, h, _⟩ := h.of_bind_ok
    obtain ⟨deps, f₄, _, _, hdeps, h, _⟩ := h.of_bind_ok
    obtain ⟨value, f₅, _, _, hvalue, h, _⟩ := h.of_bind_ok
    have h := Staged.Yields.of_get_bind h
    obtain ⟨rfl, rfl, _⟩ := Staged.Yields.of_pure_ok h
    obtain ⟨hbundle, hcauses⟩ := yields_gather_ok hdeps
    exact ⟨contexts, conditions, deps, value, f₂, f₃, f₄, ⟨_, hcontexts⟩,
      yields_consult_ok hconditions, hbundle, hcauses, ⟨_, hvalue⟩, rfl⟩

/-- The evaluation behind a cached value. -/
theorem value?_target {services : Option Services} (hst : Consistent services st)
    {v : TargetValue} (hv : st.value? (.target k) = some (.ok v)) :
    ∃ s found ks, services = some s ∧
      Staged.Yields st (AnalysisKey.initial s.settings) (k.evaluate s) (.ok v) found ks := by
  obtain ⟨_, _, _, _, _, hev⟩ := AnalysisKey.evaluates_of_value? hst rfl hv
  rcases AnalysisKey.evaluates_target hev with
    ⟨_, hmissing⟩ | ⟨s, _, found, hs, h, ⟨w, rfl, hw, _⟩ | ⟨_, _, hfailed, _⟩⟩
  · cases hmissing
  · obtain rfl := Except.ok.inj hw
    exact ⟨s, found, _, hs, h⟩
  · cases hfailed

theorem targetAt_of_value? {services : Option Services} (hst : Consistent services st)
    {v : TargetValue} (hv : st.value? (.target k) = some (.ok v)) : ∃ t, TargetAt st v.label t := by
  obtain ⟨s, found, _, _, h⟩ := value?_target hst hv
  obtain ⟨loaded, f₁, ⟨_, hload⟩, h⟩ := yields_evaluate_ok h
  have hown := (yields_load_ok hst hload).1
  split at h
  next =>
    rw [h]
    exact ⟨_, hown⟩
  next =>
    obtain ⟨contexts, conditions, deps, value, _, _, _, _, _, ⟨_, hbundle⟩, _, ⟨_, hvalue⟩,
      rfl⟩ := h
    rcases yields_build_label hvalue with hlabel | ⟨e, he, hlabel⟩
    · exact ⟨_, hlabel ▸ hown⟩
    · obtain ⟨_, _, ds, values, values', _, _, _, _, hvalues, ⟨_, _, _, haspects⟩, hentries⟩ :=
        EdgeSource.yields_bundle_ok hbundle
      rw [hentries] at he
      rcases EdgeSource.yields_applyAspects haspects with
        ⟨merged, hmerged, _, _, hkept⟩ | ⟨_, hfailed, _⟩ | ⟨_, _, hfailed, _⟩
      · obtain rfl := Except.ok.inj hmerged
        obtain ⟨a, ha, hsame, _⟩ := hkept _ (List.of_mem_zip he).2
        obtain ⟨_, _, _, htarget⟩ := Engine.exists_of_mem_right hvalues ha
        have hvalue : value.label = a.value.label := hlabel.trans hsame
        exact ⟨_, hvalue ▸ htarget⟩
      · cases hfailed
      · cases hfailed

theorem value?_target_ok (hst : Consistent (some services) st) {c : ConfigurationKey}
    (hc : k.configuration = some c) {t : Target} (ht : TargetAt st k.label t)
    (hconfigurable : t.isConfigurable = true) {v : TargetValue}
    (hv : st.value? (.target k) = some (.ok v)) :
    ∃ loaded contexts conditions deps value, loaded.target = t ∧
      loaded.configuration = some ⟨c⟩ ∧
      (∃ f₁ f₂ ks₁, Staged.Yields st f₁ (k.toolchains loaded) (.ok contexts) f₂ ks₁) ∧
      (∃ f₁ f₂ ks₁, Staged.Yields st f₁ (edgeSource loaded conditions contexts).bundle
        (.ok deps) f₂ ks₁) ∧
      (∃ f₁ f₂ ks₁, Staged.Yields st f₁ (k.build services loaded conditions contexts deps)
        (.ok value) f₂ ks₁) ∧
      v.providers = value.providers ∧ v.dependencies = deps.keys := by
  obtain ⟨s, found, _, hs, h⟩ := value?_target hst hv
  obtain rfl := Option.some.inj hs
  obtain ⟨loaded, f₁, ⟨_, hload⟩, h⟩ := yields_evaluate_ok h
  obtain ⟨hloaded, hconfiguration⟩ := yields_load_ok hst hload
  obtain rfl := ht.eq hloaded
  rw [hc] at hconfiguration
  have hfits : (loaded.target.isConfigurable != loaded.configuration.isSome) = false := by
    rw [hconfigurable, hconfiguration]
    rfl
  rw [hfits] at h
  obtain ⟨contexts, conditions, deps, value, f₂, f₃, f₄, ⟨_, hcontexts⟩, _, ⟨_, hbundle⟩, _,
    ⟨_, hvalue⟩, rfl⟩ := h
  exact ⟨loaded, contexts, conditions, deps, value, rfl, hconfiguration, ⟨_, _, _, hcontexts⟩,
    ⟨_, _, _, hbundle⟩, ⟨_, _, _, hvalue⟩, rfl, rfl⟩

end TargetKey
end BuildAnalysis
