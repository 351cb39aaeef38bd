import BuildAnalysis.Proofs.Analysis.Success

/-!
# Targets of the built-in rules

A setting provides its settings and whether the configuration that it is analyzed in meets them.
The settings are those that its attributes declare; reading them takes no condition. An alias has
what its one dependency provides, which is analyzed in the configuration of the alias, trimmed.
-/
namespace BuildAnalysis.BuiltinRules

open Engine (Store)

variable {services : Services} {st : Store analysisSpace} {k : TargetKey} {t : Target}

/-- The context in which there are no conditions. -/
def unconditional : ConditionContext := .ofSettings (.ofOptions {}) []

/-- The entries that an attribute declares, whatever the conditions. -/
def declaredEntries? (t : Target) (name : String) : Option (List (AttrValue × AttrValue)) :=
  (t.attr? name).bind fun e =>
    match e.configure unconditional with
    | .ok v => v.asDict?
    | .error _ => none

/-- The settings that a target declares. -/
def settings? (t : Target) : Option Settings :=
  match declaredEntries? t "values", declaredEntries? t "flag_values" with
  | some values, some flags =>
    some ⟨.ofList (partition (values.map optionEntry)).2,
      .ofList (partition (flags.map flagEntry)).2⟩
  | _, _ => none

/-- A target of the rule of settings that declares settings. -/
def IsSetting (t : Target) (settings : Settings) : Prop :=
  (∃ r, settingRule = .ok r ∧ t.rule? = some r) ∧ settings? t = some settings

/-- A target of the rule of aliases. -/
def IsAlias (t : Target) : Prop := ∃ r, aliasRule = .ok r ∧ t.rule? = some r

structure Installed (services : Services) : Prop where
  setting : services.implementations.rule? settingId = some BuiltinRules.setting
  standIn : services.implementations.rule? aliasId = some BuiltinRules.standIn

theorem withoutToolchains_eq_ok {id : String} {attributes : List RuleAttr} {r : Rule}
    (h : withoutToolchains id attributes = .ok r) :
    r.id = id ∧ r.attributes = Rule.constraintsDecl :: attributes ∧
      r.usesToolchainResolution = false ∧ r.configurable = true ∧ r.requiredFragments = ∅ := by
  unfold withoutToolchains Rule.declare at h
  dsimp only at h
  split at h
  next =>
    obtain rfl := Except.ok.inj h
    exact ⟨rfl, rfl, rfl, rfl, rfl⟩
  next => cases h

theorem kind_of_rule? {r : Rule} (h : t.rule? = some r) : t.kind = .rule r := by
  unfold Target.rule? at h
  split at h
  next hkind =>
    obtain rfl := Option.some.inj h
    exact hkind
  next => cases h

theorem IsSetting.isConfigurable {settings : Settings} (h : IsSetting t settings) :
    t.isConfigurable = true := by
  obtain ⟨⟨r, hr, ht⟩, _⟩ := h
  simp only [Target.isConfigurable, kind_of_rule? ht, (withoutToolchains_eq_ok hr).2.2.2.1]

theorem IsAlias.isConfigurable (h : IsAlias t) : t.isConfigurable = true := by
  obtain ⟨r, hr, ht⟩ := h
  simp only [Target.isConfigurable, kind_of_rule? ht, (withoutToolchains_eq_ok hr).2.2.2.1]

/-- No fragments are needed for a setting. -/
theorem IsSetting.value?_fragments {settings : Settings} (h : IsSetting t settings)
    (hst : Consistent (some services) st) {label : Label} (ht : TargetAt st label t)
    {r : Except Failure (SortedSet String)} (hr : st.value? (.fragments label) = some r) :
    r = .ok ∅ := by
  obtain ⟨⟨rule, hrule, hkind⟩, _⟩ := h
  obtain ⟨_, hattributes, _, _, hfragments⟩ := withoutToolchains_eq_ok hrule
  have hdeclared : t.declared = rule.attributes := by rw [Target.declared, kind_of_rule? hkind]
  have hrequired : t.requiredFragments = rule.requiredFragments := by
    rw [Target.requiredFragments, kind_of_rule? hkind]
  rw [hattributes] at hdeclared
  have hdeps : t.unconfiguredDeps = [] := by
    simp [Target.unconfiguredDeps, Target.attributes, hdeclared, Rule.constraintsDecl,
      RuleAttr.ofDecl, AttrDecl.value, AttrDecl.nonconfigurable]
  have hown : AnalysisKey.ownFragments t = ∅ := by
    simp [AnalysisKey.ownFragments, Target.attributes, hdeclared, Rule.constraintsDecl,
      RuleAttr.ofDecl, hrequired, hfragments]
  rw [AnalysisKey.value?_fragments_of_leaf hst ht hdeps hr, hown]

theorem attr_of_declaredEntries? {c : RuleContext} {name : String} {cfg : Configuration}
    (hc : c.configuration = some cfg) {es : List (AttrValue × AttrValue)}
    (h : declaredEntries? c.target name = some es) :
    c.attr name >>= entries name = .ok es := by
  obtain ⟨e, he, h⟩ := Option.bind_eq_some_iff.mp h
  split at h
  next v hv =>
    have hunknown : unconditional.ExtendedOn e.keyOccurrences (c.conditions.context cfg) :=
      fun l _ s hs => by cases hs
    have hattr : c.attr name = .ok v := by
      rw [RuleContext.attr, he, hc]
      exact AttrExpr.configure_extended e hunknown v hv
    rw [hattr]
    change entries name v = .ok es
    rw [entries, h]
  next => cases h

theorem yields_setting_ok {c : RuleContext} {cfg : Configuration}
    (hc : c.configuration = some cfg) {settings : Settings}
    (hsettings : settings? c.target = some settings) {out : RuleOutput} {es es' : List Event}
    {ks : List AnalysisKey} (h : Staged.Yields st es (setting c) (.ok out) es' ks) :
    out = .providers ((∅ : Providers).put Providers.conditionName
      (.condition ⟨c.label, settings, settings.isMet cfg.options⟩)) := by
  unfold settings? at hsettings
  split at hsettings
  next values flags hvalues hflags =>
    obtain rfl := Option.some.inj hsettings
    unfold setting at h
    obtain ⟨values', _, _, _, hvalues', h, _⟩ := h.of_bind_ok
    have heq := (Staged.Yields.of_ofExcept hvalues').1
    rw [attr_of_declaredEntries? hc hvalues] at heq
    obtain rfl := Except.ok.inj heq
    obtain ⟨_, _, _, _, _, h, _⟩ := h.of_bind_ok
    obtain ⟨flags', _, _, _, hflags', h, _⟩ := h.of_bind_ok
    have heq := (Staged.Yields.of_ofExcept hflags').1
    rw [attr_of_declaredEntries? hc hflags] at heq
    obtain rfl := Except.ok.inj heq
    obtain ⟨_, _, _, _, _, h, _⟩ := h.of_bind_ok
    dsimp only at h
    rw [hc] at h
    split at h
    next =>
      obtain ⟨_, _, _, _, _, h, _⟩ := h.of_bind_ok
      exact Except.ok.inj (Staged.Yields.of_pure h).1
    next => exact Except.ok.inj (Staged.Yields.of_pure h).1
  next => cases hsettings

theorem condition?_put (m : ConditionMatch) :
    ((∅ : Providers).put Providers.conditionName (.condition m)).condition? = some m := rfl

/-- A cached setting provides whether its settings are met in the configuration of its key. -/
theorem IsSetting.condition? {settings : Settings} (h : IsSetting t settings)
    (hst : Consistent (some services) st) (hservices : Installed services)
    (ht : TargetAt st k.label t) {c : ConfigurationKey} (hc : k.configuration = some c)
    {v : TargetValue} (hv : st.value? (.target k) = some (.ok v)) :
    ∃ label, v.providers.condition? = some ⟨label, settings, settings.isMet c.options⟩ := by
  have hconfigurable := h.isConfigurable
  obtain ⟨⟨r, hr, hrule⟩, hsettings⟩ := h
  obtain ⟨loaded, contexts, conditions, deps, value, rfl, hloaded, _, _,
    ⟨_, _, _, hbuild⟩, hproviders, _⟩ :=
    TargetKey.value?_target_ok hst hc ht hconfigurable hv
  obtain ⟨i, ctx, out, events, _, hi, htarget, hconfiguration, _, hout, _, hvalue⟩ :=
    TargetKey.yields_build_ok hrule hbuild
  rw [(withoutToolchains_eq_ok hr).1, hservices.setting] at hi
  obtain rfl := Option.some.inj hi
  rw [hloaded] at hconfiguration
  rw [← htarget] at hsettings
  obtain rfl := yields_setting_ok hconfiguration hsettings hout
  obtain rfl := Except.ok.inj hvalue
  exact ⟨_, by rw [hproviders]; exact condition?_put _⟩

theorem yields_toolchains_of_none {loaded : TargetKey.Loaded} {r : Rule} {f f' : Findings}
    {ks : List AnalysisKey} (hrule : loaded.target.rule? = some r)
    (hnone : r.usesToolchainResolution = false) {contexts : Option ToolchainContexts}
    (h : Staged.Yields st f (k.toolchains loaded) (.ok contexts) f' ks) :
    contexts.bind ToolchainContexts.contexts = none := by
  unfold TargetKey.toolchains at h
  rw [hrule] at h
  split at h
  next c q _ hq =>
    obtain rfl := Option.some.inj hq
    obtain ⟨resolved, _, _, _, hresolved, h, _⟩ := h.of_bind_ok
    obtain ⟨_, _, _, _, _, h, _⟩ := h.of_bind_ok
    obtain rfl := Except.ok.inj h.of_pure.1
    unfold ToolchainContexts.resolve at hresolved
    rw [hnone] at hresolved
    obtain ⟨groups, _, _, _, _, hresolved, _⟩ := hresolved.of_bind_ok
    obtain rfl := Except.ok.inj (Staged.Yields.of_pure hresolved).1
    rfl
  next =>
    obtain rfl := Except.ok.inj h.of_pure.1
    rfl

def aliasEdge (l : Label) : Edge := { kind := .attribute "actual", label := l, transition := .keep }

/-- The attributes of an alias, of which only the label of its target is given. -/
theorem IsAlias.attributes_eq (h : IsAlias t) {e : AttrExpr} (he : t.attr? "actual" = some e) :
    t.attributes = [(Rule.constraintsDecl,
      (Listing.find? Rule.constraintsAttr t.values).getD (.list [])),
      (.ofDecl (.dep "actual"), e)] := by
  obtain ⟨r, hr, hrule⟩ := h
  obtain ⟨_, hattributes, _⟩ := withoutToolchains_eq_ok hr
  have hdeclared : t.declared = r.attributes := by
    rw [Target.declared, kind_of_rule? hrule]
  have hactual : (Listing.find? "actual" t.values).getD (.list []) = e := by
    unfold Target.attr? at he
    split at he
    next v hv =>
      rw [hv]
      exact Option.some.inj he
    next hv =>
      rw [hrule, Option.bind_some, Rule.attribute?, hattributes] at he
      rw [hv]
      exact Option.some.inj he
  rw [Target.attributes, hdeclared, hattributes, ← hactual]
  rfl

theorem IsAlias.edges {s : EdgeSource} (h : IsAlias s.target) (haspect : s.aspect = none)
    (htoolchains : s.toolchains.bind ToolchainContexts.contexts = none) {e : AttrExpr}
    (he : s.target.attr? "actual" = some e) {l : Label}
    (hl : s.conditions.configure s.configuration e = .ok (.label l)) :
    s.edges = .ok [aliasEdge l] := by
  have hattr := h.attributes_eq he
  have hlabels : s.labels (RuleAttr.ofDecl (.dep "actual")).toAttrDecl e = .ok [l] := by
    rw [EdgeSource.labels, hl]
    rfl
  have hedges : s.attributeEdges (RuleAttr.ofDecl (.dep "actual")).toAttrDecl e
      (.attribute "actual") [] = .ok [aliasEdge l] := by
    rw [EdgeSource.attributeEdges, hlabels]
    rfl
  have hnone : ∀ x, s.attributeEdges Rule.constraintsDecl.toAttrDecl x
      (.attribute Rule.constraintsAttr) [] = .ok [] := fun x => rfl
  unfold EdgeSource.edges EdgeSource.allAttributeEdges
  rw [haspect, hattr, htoolchains]
  change ((sequence [s.attributeEdges Rule.constraintsDecl.toAttrDecl _
    (.attribute Rule.constraintsAttr) [],
    s.attributeEdges (RuleAttr.ofDecl (.dep "actual")).toAttrDecl e (.attribute "actual") []]).map
      List.flatten).map _ = _
  rw [hnone, hedges]
  rfl

theorem yields_dependencies_of_aliasEdge {s : EdgeSource} (hst : Consistent (some services) st)
    {parent : Configuration} (hparent : s.configuration = some parent) {l : Label}
    {nodes : List (Edge × Target)} (hsub : (nodes.map Prod.fst).Sublist [aliasEdge l])
    (hnodes : ∀ n ∈ nodes, TargetAt st n.1.label n.2) {deps : List Dependency} {f f' : Findings}
    {ks : List AnalysisKey} (h : Staged.Yields st f (s.dependencies nodes) (.ok deps) f' ks) :
    deps = [] ∨ ∃ d, deps = [d] ∧ d.aspects = [] ∧
      ∀ t, TargetAt st d.label t → t.isConfigurable = true →
        ∃ r, st.value? (.fragments d.label) = some r ∧
          d.key.configuration = some (EdgeSource.trimmed (some r) parent.options) := by
  obtain ⟨fragments, expanded, hfragments, hexpanded, rfl⟩ :=
    EdgeSource.yields_dependencies_ok hst hparent h
  cases nodes with
  | nil =>
      cases hexpanded
      exact .inl rfl
  | cons n nodes =>
      obtain ⟨e, t⟩ := n
      have hlength := hsub.length_le
      obtain rfl : nodes = [] := by
        simpa using hlength
      obtain rfl : e = aliasEdge l := by
        simpa using hsub
      obtain ⟨x, hx, rfl⟩ : ∃ x, s.configurationsOf parent fragments (aliasEdge l) t = .ok x ∧
          expanded = [x] := by
        cases hexpanded with
        | cons hx hrest =>
            cases hrest
            exact ⟨_, hx, rfl⟩
      refine .inr ?_
      cases ht : t.isConfigurable with
      | false =>
          rw [EdgeSource.configurationsOf, ht] at hx
          obtain rfl := Except.ok.inj hx
          refine ⟨_, rfl, rfl, fun t' ht' hconfigurable => ?_⟩
          rw [← (hnodes _ List.mem_cons_self).eq ht', ht] at hconfigurable
          cases hconfigurable
      | true =>
          rw [EdgeSource.configurationsOf_keep ht rfl] at hx
          obtain rfl := Except.ok.inj hx
          obtain ⟨r, hr, hfind⟩ := hfragments _ List.mem_cons_self ht
          refine ⟨_, rfl, rfl, fun t' _ _ => ⟨r, hr, ?_⟩⟩
          rw [hfind]
          rfl

theorem attr_eq_ok {c : RuleContext} {name : String} {v : AttrValue} (h : c.attr name = .ok v) :
    ∃ e, c.target.attr? name = some e ∧ c.conditions.configure c.configuration e = .ok v := by
  unfold RuleContext.attr at h
  split at h
  next => cases h
  next e he => exact ⟨e, he, h⟩

/-- The output of an alias: it stands for the label that its attribute has. -/
theorem yields_standIn_ok {ctx : RuleContext} {out : RuleOutput} {es es' : List Event}
    {ks : List AnalysisKey} (h : Staged.Yields st es (standIn ctx) (.ok out) es' ks) :
    ∃ l, ctx.attr "actual" = .ok (.label l) ∧ out = .standsFor l := by
  unfold standIn at h
  obtain ⟨actual, _, _, _, hactual, hout, _⟩ := h.of_bind_ok
  have hactual := (Staged.Yields.of_ofExcept hactual).1
  split at hout
  next l hl =>
    have hout := Except.ok.inj (Staged.Yields.of_pure hout).1
    cases actual with
    | label l' =>
        obtain rfl := Option.some.inj hl
        exact ⟨l', hactual.symm, hout⟩
    | _ => cases hl
  next => cases (Staged.Yields.of_throw hout).1

/-- What the evaluation of an alias in a configuration went through: where its edge came from, the
label that it leads to, and its bundle. -/
structure StoodIn (st : Store analysisSpace) (k : TargetKey) (t : Target) (c : ConfigurationKey)
    (v : TargetValue) (s : EdgeSource) (l : Label) (deps : DependencyBundle) : Prop where
  configuration : s.configuration = some ⟨c⟩
  actual : ∃ e, t.attr? "actual" = some e ∧
    s.conditions.configure (some ⟨c⟩) e = .ok (.label l)
  conditions : ∃ f f' ks,
    Staged.Yields st f (Conditions.ofTarget t (some ⟨c⟩)) (.ok s.conditions) f' ks
  edges : s.edges = .ok [aliasEdge l]
  bundle : ∃ f f' ks, Staged.Yields st f s.bundle (.ok deps) f' ks ∧ f'.causes.isEmpty = true
  value : ∃ w, k.valueOf deps (.standsFor l) = .ok w ∧
    v = { w with dependencies := deps.keys, toolchains := v.toolchains, packages := v.packages }

/-- The evaluation behind a cached alias. -/
theorem IsAlias.stoodIn (h : IsAlias t) (hst : Consistent (some services) st)
    (hservices : Installed services) (ht : TargetAt st k.label t) {c : ConfigurationKey}
    (hc : k.configuration = some c) {v : TargetValue}
    (hv : st.value? (.target k) = some (.ok v)) : ∃ s l deps, StoodIn st k t c v s l deps := by
  have hconfigurable := h.isConfigurable
  have halias := h
  obtain ⟨r, hr, hrule⟩ := h
  obtain ⟨hid, _, hresolution, _⟩ := withoutToolchains_eq_ok hr
  obtain ⟨_, found, _, hs, hyields⟩ := TargetKey.value?_target hst hv
  obtain rfl := Option.some.inj hs
  obtain ⟨loaded, f₁, ⟨_, hload⟩, hyields⟩ := TargetKey.yields_evaluate_ok hyields
  obtain ⟨hloaded, hconfiguration⟩ := TargetKey.yields_load_ok hst hload
  obtain rfl := ht.eq hloaded
  rw [hc, Option.map_some] at hconfiguration
  have hfits : (loaded.target.isConfigurable != loaded.configuration.isSome) = false := by
    rw [hconfigurable, hconfiguration]
    rfl
  rw [hfits] at hyields
  obtain ⟨contexts, conditions, deps, value, f₂, f₃, f₄, ⟨_, hcontexts⟩, ⟨_, hconditions⟩,
    ⟨_, hbundle⟩, hnone, ⟨_, hbuild⟩, rfl⟩ := hyields
  obtain ⟨i, ctx, out, _, _, hi, htarget, hctx, hctxConditions, hout, _, hvalue⟩ :=
    TargetKey.yields_build_ok hrule hbuild
  rw [hid, hservices.standIn] at hi
  obtain rfl := Option.some.inj hi
  obtain ⟨l, hactual, rfl⟩ := yields_standIn_ok hout
  obtain ⟨e, he, hlabel⟩ := attr_eq_ok hactual
  rw [htarget] at he
  rw [hctxConditions, hctx] at hlabel
  have hnoToolchains := yields_toolchains_of_none hrule hresolution hcontexts
  have hedges : (TargetKey.edgeSource loaded conditions contexts).edges = .ok [aliasEdge l] :=
    IsAlias.edges halias rfl hnoToolchains he hlabel
  rw [hconfiguration] at hconditions hlabel
  exact ⟨TargetKey.edgeSource loaded conditions contexts, l, deps,
    { configuration := hconfiguration
      actual := ⟨e, he, hlabel⟩
      conditions := ⟨_, _, _, hconditions⟩
      edges := hedges
      bundle := ⟨_, _, _, hbundle, hnone⟩
      value := ⟨value, hvalue, rfl⟩ }⟩

/-- A cached alias has the providers of its dependency, which is analyzed in the trimmed
configuration of the alias. -/
theorem IsAlias.value? (h : IsAlias t) (hst : Consistent (some services) st)
    (hservices : Installed services) (ht : TargetAt st k.label t) {c : ConfigurationKey}
    (hc : k.configuration = some c) {v : TargetValue}
    (hv : st.value? (.target k) = some (.ok v)) :
    ∃ k' v', v.dependencies = [k'] ∧ st.value? (.target k') = some (.ok v') ∧
      v.providers = v'.providers ∧ ∀ t', TargetAt st k'.label t' → t'.isConfigurable = true →
        ∃ r, st.value? (.fragments k'.label) = some r ∧
          k'.configuration = some (EdgeSource.trimmed (some r) c.options) := by
  obtain ⟨s, l, deps, hstood⟩ := h.stoodIn hst hservices ht hc hv
  obtain ⟨_, _, _, hbundle, _⟩ := hstood.bundle
  obtain ⟨w, hvalue, hv⟩ := hstood.value
  obtain ⟨es, nodes, ds, values, values', hes, hsub, hnodes, ⟨_, _, _, hds⟩, hvalues,
    ⟨_, _, _, haspects⟩, hentries⟩ := EdgeSource.yields_bundle_ok hbundle
  obtain rfl := Except.ok.inj (hstood.edges.symm.trans hes)
  rcases yields_dependencies_of_aliasEdge hst hstood.configuration hsub hnodes hds with rfl | hds
  · rw [TargetKey.valueOf, hentries] at hvalue
    cases hvalue
  · obtain ⟨d, rfl, hnoaspects, htrimmed⟩ := hds
    cases hvalues with
    | @cons _ a _ _ ha hrest =>
        cases hrest
        obtain rfl := EdgeSource.yields_applyAspects_of_none
          (List.forall_mem_singleton.mpr hnoaspects) haspects
        have hdependencies : v.dependencies = deps.keys := by rw [hv]
        have hproviders : v.providers = w.providers := by rw [hv]
        refine ⟨d.key, a.value, ?_, ha.1, ?_, htrimmed⟩
        · rw [hdependencies, DependencyBundle.keys, hentries]
          rfl
        · rw [hproviders]
          rw [TargetKey.valueOf, hentries] at hvalue
          dsimp only at hvalue
          split at hvalue
          next p hp =>
            obtain rfl := Except.ok.inj hvalue
            obtain rfl := List.mem_singleton.mp (List.mem_of_find?_eq_some hp)
            rfl
          next => cases hvalue

section
variable {D : {α : Type} → Demand α → Prop} [Engine.Demand.Composed D]

theorem setting_has (c : RuleContext) : Staged.Has D (setting c) := by
  unfold setting
  refine .bind (.ofExcept _) fun values => .bind (.forM fun _ _ => .modify _) fun _ =>
    .bind (.ofExcept _) fun flags => .bind (.forM fun _ _ => .modify _) fun _ => ?_
  dsimp only
  split
  · refine .bind (.modify _) fun _ => ?_
    split
    · exact .throw _
    · exact .pure _
  · split
    · exact .throw _
    · exact .pure _

theorem standIn_has (c : RuleContext) : Staged.Has D (standIn c) := by
  unfold standIn
  refine .bind (.ofExcept _) fun actual => ?_
  split
  · exact .pure _
  · exact .throw _

theorem implementations_have : implementations.Have D :=
  (Implementations.have_empty.addRule setting_has).addRule standIn_has

end

theorem implementations_lawful : implementations.Lawful :=
  Implementations.lawful_iff.mpr implementations_have

end BuildAnalysis.BuiltinRules
