import BuildAnalysis.Proofs.Analysis.Fragments

/-!
# What edges expand to

The edges of a target are those of its attributes, in order of declaration and with labels in their
configured order, and then those to the toolchains of its groups. An edge expands to a dependency
without a configuration, to one in the options that its transition leads to, or to one for each part
of a split. A bundle consists of what the edges expand to, in edge order, each dependency with the
value that is cached for its own key and with what its aspects provide. If the target has a
configuration, a dependency that comes up again is left out; if it has none, it is kept.
-/
namespace BuildAnalysis

open Engine (Store)

variable {services : Option Services} {st : Store analysisSpace} {f f' : Findings}
  {ks : List AnalysisKey}

section Related

variable {α β γ : Type} {as : List α} {bs : List β} {cs : List γ}

theorem forall₂_comp {R : α → β → Prop} {R' : β → γ → Prop} (h : List.Forall₂ R as bs)
    (h' : List.Forall₂ R' bs cs) : List.Forall₂ (fun a c => ∃ b, R a b ∧ R' b c) as cs := by
  induction h generalizing cs with
  | nil =>
      cases h'
      exact .nil
  | cons hr _ ih =>
      cases h' with
      | cons hr' h' => exact .cons ⟨_, hr, hr'⟩ (ih h')

theorem forall₂_of_zip {R : α → β → Prop} {R' : α × β → γ → Prop} (h : List.Forall₂ R as bs)
    (h' : List.Forall₂ R' (as.zip bs) cs) :
    List.Forall₂ (fun a c => ∃ b, R a b ∧ R' (a, b) c) as cs := by
  induction h generalizing cs with
  | nil =>
      cases h'
      exact .nil
  | cons hr _ ih =>
      cases h' with
      | cons hr' h' => exact .cons ⟨_, hr, hr'⟩ (ih h')

theorem zip_take_length (as : List α) (bs : List β) :
    as.zip (bs.take as.length) = as.zip bs := by
  induction as generalizing bs with
  | nil => rfl
  | cons a as ih =>
      cases bs with
      | nil => rfl
      | cons b bs => exact congrArg ((a, b) :: ·) (ih bs)

end Related

namespace EdgeSource

variable {s : EdgeSource}

structure Followed where
  decl : AttrDecl
  value : AttrExpr
  kind : DependencyKind
  aspects : List Aspect

/-- The attributes of the target with their values, in order of declaration. If there is an aspect,
they are those of the aspect with their defaults. -/
def followed (s : EdgeSource) : List Followed :=
  match s.aspect with
  | none => s.target.attributes.map fun e =>
      ⟨e.1.toAttrDecl, e.2, .attribute e.1.name, e.1.aspects⟩
  | some aspect => aspect.attributes.map fun a =>
      ⟨a, a.default, .aspectAttribute aspect.id a.name, []⟩

def resolvedToolchains (s : EdgeSource) : List (String × ToolchainContext) :=
  (s.toolchains.bind ToolchainContexts.contexts).getD []

/-- The edges of an attribute: none unless it is one of dependencies, else one for each label of its
configured value, in order. -/
inductive AttributeEdges (s : EdgeSource) (a : Followed) : List Edge → Prop
  | plain (h : a.decl.kind ≠ .dep) : AttributeEdges s a []
  | labels {v : AttrValue} {es : List Edge} (h : a.decl.kind = .dep)
      (configured : s.conditions.configure s.configuration a.value = .ok v)
      (labels : es.map Edge.label = v.labels)
      (own : ∀ e ∈ es, e.kind = a.kind ∧ e.aspects = a.aspects ∧ e.executionPlatform = none ∧
        s.transition a.decl = .ok e.transition) : AttributeEdges s a es

/-- The edges of an execution group: one for each toolchain resolved for it, in order. They drop the
flags and are for the platform of the group just if the rule asks for that. -/
structure GroupEdges (s : EdgeSource) (g : String × ToolchainContext) (es : List Edge) : Prop where
  labels : es.map Edge.label = g.2.labels
  own : ∀ e ∈ es, e.kind = .toolchain g.1 ∧ e.aspects = []
  kept : s.target.rule?.any Rule.usesToolchainTransition = false →
    ∀ e ∈ es, e.transition = .keep ∧ e.executionPlatform = none
  forPlatform : s.target.rule?.any Rule.usesToolchainTransition = true →
    ∀ e ∈ es, e.transition = .dropFlags ∧ e.executionPlatform = g.2.executionPlatform

theorem GroupEdges.transition {g : String × ToolchainContext} {es : List Edge}
    (h : s.GroupEdges g es) {e : Edge} (he : e ∈ es) :
    e.transition = .keep ∨ e.transition = .dropFlags := by
  cases hrule : s.target.rule?.any Rule.usesToolchainTransition with
  | false => exact .inl (h.kept hrule e he).1
  | true => exact .inr (h.forPlatform hrule e he).1

/-- The edges of a target, attributes first. -/
def Collects (s : EdgeSource) (es : List Edge) : Prop :=
  ∃ attributes groups, List.Forall₂ s.AttributeEdges s.followed attributes ∧
    List.Forall₂ s.GroupEdges s.resolvedToolchains groups ∧
    es = attributes.flatten ++ groups.flatten

theorem attributeEdges_eq_ok {a : Followed} {es : List Edge}
    (h : s.attributeEdges a.decl a.value a.kind a.aspects = .ok es) : s.AttributeEdges a es := by
  unfold attributeEdges at h
  split at h
  next hkind =>
    obtain rfl := Except.ok.inj h
    exact .plain hkind
  next hkind =>
    have hdep : a.decl.kind = .dep := by simpa using hkind
    have hlabels : ∀ ls, s.labels a.decl a.value = .ok ls →
        ∃ v, s.conditions.configure s.configuration a.value = .ok v ∧ v.labels = ls := by
      intro ls hls
      unfold labels at hls
      split at hls
      next v hv => exact ⟨v, hv, Except.ok.inj hls⟩
      next => cases hls
    split at h
    next => cases h
    next hls =>
      obtain rfl := Except.ok.inj h
      obtain ⟨v, hv, hnone⟩ := hlabels _ hls
      exact .labels hdep hv hnone.symm fun e he => absurd he List.not_mem_nil
    next ls _ hls =>
      obtain ⟨v, hv, rfl⟩ := hlabels _ hls
      split at h
      next => cases h
      next t ht =>
        obtain rfl := Except.ok.inj h
        refine .labels hdep hv (by simp [Function.comp_def]) fun e he => ?_
        obtain ⟨l, _, rfl⟩ := List.mem_map.mp he
        exact ⟨rfl, rfl, rfl, ht⟩

theorem toolchainEdges_collected (g : String × ToolchainContext) :
    s.GroupEdges g (s.toolchainEdges g.1 g.2) where
  labels := by simp [toolchainEdges, Function.comp_def]
  own e he := by
    obtain ⟨l, _, rfl⟩ := List.mem_map.mp he
    exact ⟨rfl, rfl⟩
  kept hrule e he := by
    obtain ⟨l, _, rfl⟩ := List.mem_map.mp he
    simp [hrule]
  forPlatform hrule e he := by
    obtain ⟨l, _, rfl⟩ := List.mem_map.mp he
    simp [hrule]

theorem collects_of_edges {es : List Edge} (h : s.edges = .ok es) : s.Collects es := by
  have hparts : s.allAttributeEdges = (sequence (s.followed.map fun a =>
      s.attributeEdges a.decl a.value a.kind a.aspects)).map List.flatten := by
    unfold allAttributeEdges followed
    cases s.aspect with
    | none => simp only [List.map_map, Function.comp_def]
    | some aspect => simp only [List.map_map, Function.comp_def]
  unfold edges at h
  rw [hparts] at h
  cases hattributes : sequence (s.followed.map fun a =>
      s.attributeEdges a.decl a.value a.kind a.aspects) with
  | error x =>
      rw [hattributes] at h
      cases h
  | ok attributes =>
      rw [hattributes] at h
      obtain rfl := Except.ok.inj h
      refine ⟨attributes, s.resolvedToolchains.map fun g => s.toolchainEdges g.1 g.2, ?_, ?_, ?_⟩
      · exact (List.forall₂_map_left_iff.mp (sequence_eq_ok hattributes)).imp fun a es hes =>
          attributeEdges_eq_ok hes
      · exact List.forall₂_map_right_iff.mpr
          (List.forall₂_same.mpr fun g _ => s.toolchainEdges_collected g)
      · rw [← List.flatMap_def]
        rfl

/-- The configuration of options for a label: trimmed to the fragments cached for it, or as they
are if those are not known. -/
def trimmedFor (st : Store analysisSpace) (label : Label) (o : BuildOptions) : Configuration :=
  match st.value? (.fragments label) with
  | some (.ok fragments) => .ofOptions (o.trim fragments)
  | _ => .ofOptions o

/-- What the transition of an edge makes of the configuration of the target, if the target of the
edge depends on it. -/
def LeadsTo (st : Store analysisSpace) (s : EdgeSource) (e : Edge) (r : Transition.Outcome) :
    Prop :=
  ∃ parent t, s.configuration = some parent ∧ TargetAt st e.label t ∧ t.isConfigurable = true ∧
    e.transition.apply parent.options = .ok r

inductive Expands (st : Store analysisSpace) (s : EdgeSource) (e : Edge) : List Dependency → Prop
  | unconfigured (h : s.configuration = none) : Expands st s e [dependency e none none]
  | independent {t : Target} (ht : TargetAt st e.label t) (h : t.isConfigurable = false) :
      Expands st s e [dependency e none none]
  | dropped (h : s.LeadsTo st e .noConfiguration) : Expands st s e [dependency e none none]
  | patched {o : BuildOptions} (h : s.LeadsTo st e (.patched o)) :
      Expands st s e [dependency e none (some (trimmedFor st e.label o))]
  | split {os : List (String × BuildOptions)} (h : s.LeadsTo st e (.split os)) :
      Expands st s e (os.map fun p =>
        dependency e (some p.1) (some (trimmedFor st e.label p.2)))

/-- What an edge expands to keeps everything of the edge but its transition. -/
theorem Expands.of_mem {e : Edge} {ds : List Dependency} (h : s.Expands st e ds) {d : Dependency}
    (hd : d ∈ ds) : ∃ key c, d = dependency e key c := by
  cases h with
  | split _ =>
      obtain ⟨p, _, rfl⟩ := List.mem_map.mp hd
      exact ⟨_, _, rfl⟩
  | _ => exact ⟨_, _, List.mem_singleton.mp hd⟩

theorem mk_trimmed {label : Label}
    {fragments : List (Label × Except Failure (SortedSet String))}
    (h : ∃ r, st.value? (.fragments label) = some r ∧ Listing.find? label fragments = some r)
    (o : BuildOptions) :
    Configuration.mk (trimmed (Listing.find? label fragments) o) = trimmedFor st label o := by
  obtain ⟨r, hr, hfind⟩ := h
  unfold trimmedFor
  rw [hfind, hr]
  cases r with
  | ok fragments => rfl
  | error x => rfl

/-- The configurations that an edge leads to are those that it expands to. -/
theorem expands_of_configurationsOf {parent : Configuration}
    (hparent : s.configuration = some parent)
    {fragments : List (Label × Except Failure (SortedSet String))} {e : Edge} {t : Target}
    (ht : TargetAt st e.label t)
    (hfragments : t.isConfigurable = true → ∃ r, st.value? (.fragments e.label) = some r ∧
      Listing.find? e.label fragments = some r)
    {out : List (Edge × Option String × Option ConfigurationKey)}
    (h : s.configurationsOf parent fragments e t = .ok out) :
    s.Expands st e (out.map fun x => dependency x.1 x.2.1 (x.2.2.map Configuration.mk)) := by
  unfold configurationsOf at h
  split at h
  next hfixed =>
    obtain rfl := Except.ok.inj h
    exact .independent ht (by simpa using hfixed)
  next hconfigurable =>
    have hconfigurable : t.isConfigurable = true := by simpa using hconfigurable
    have htrimmed := mk_trimmed (hfragments hconfigurable)
    have hleads : ∀ x, e.transition.apply parent.options = .ok x → s.LeadsTo st e x :=
      fun x hx => ⟨parent, t, hparent, ht, hconfigurable, hx⟩
    dsimp only at h
    split at h
    next => cases h
    next ho =>
      obtain rfl := Except.ok.inj h
      exact .dropped (hleads _ ho)
    next o ho =>
      obtain rfl := Except.ok.inj h
      rw [List.map_singleton, Option.map_some, htrimmed]
      exact .patched (hleads _ ho)
    next os ho =>
      obtain rfl := Except.ok.inj h
      simp only [List.map_map, Function.comp_def, Option.map_some, htrimmed]
      exact .split (hleads _ ho)

/-- The dependencies of a target are what its edges expand to, in order. Those of a target with a
configuration are taken once each. -/
def Expanded (st : Store analysisSpace) (s : EdgeSource) (es : List Edge)
    (parts : List (List Dependency)) (deps : List Dependency) : Prop :=
  List.Forall₂ (s.Expands st) es parts ∧
    match s.configuration with
    | none => deps = parts.flatten
    | some _ => deps = Listing.distinct parts.flatten

theorem yields_dependencies_expanded (hst : Consistent services st)
    {nodes : List (Edge × Target)} (hnodes : ∀ n ∈ nodes, TargetAt st n.1.label n.2)
    {deps : List Dependency}
    (h : Staged.Yields st f (s.dependencies nodes) (.ok deps) f' ks) :
    ∃ parts, s.Expanded st (nodes.map Prod.fst) parts deps := by
  unfold Expanded
  cases hparent : s.configuration with
  | none =>
      unfold dependencies at h
      rw [hparent] at h
      obtain ⟨rfl, _, _⟩ := Staged.Yields.of_pure_ok h
      refine ⟨nodes.map fun n => [dependency n.1 none none], ?_, ?_⟩
      · refine List.forall₂_map_left_iff.mpr (List.forall₂_map_right_iff.mpr ?_)
        exact List.forall₂_same.mpr fun n _ => .unconfigured hparent
      · rw [← List.flatMap_def]
        exact List.map_eq_flatMap
  | some parent =>
      obtain ⟨fragments, expanded, hfragments, hexpanded, rfl⟩ :=
        yields_dependencies_ok hst hparent h
      refine ⟨expanded.map fun out => out.map fun x =>
        dependency x.1 x.2.1 (x.2.2.map Configuration.mk), ?_, ?_⟩
      · refine List.forall₂_map_left_iff.mpr (List.forall₂_map_right_iff.mpr ?_)
        rw [List.forall₂_iff_zip] at hexpanded ⊢
        refine ⟨hexpanded.1, fun {n out} hmem => ?_⟩
        have hn := (List.of_mem_zip hmem).1
        exact expands_of_configurationsOf hparent (hnodes n hn) (hfragments n hn)
          (hexpanded.2 hmem)
      · rw [List.map_flatten]

theorem map_fst_of_looked {es : List Edge} {look : Edge → Except Failure Target}
    (h : ∀ e ∈ es, ∃ t, look e = .ok t) :
    (((es.map fun e => (e, look e)).filterMap fun e =>
      e.2.toOption.map fun t => (e.1, t)).map Prod.fst) = es := by
  induction es with
  | nil => rfl
  | cons e es ih =>
      obtain ⟨⟨t, ht⟩, hrest⟩ := List.forall_mem_cons.mp h
      simp only [List.map_cons, List.filterMap_cons, ht]
      exact congrArg (e :: ·) (ih hrest)

/-- If no cause was found, no edge is left out. -/
theorem yields_loadTargets_all {es : List Edge} {nodes : List (Edge × Target)}
    (h : Staged.Yields st f (s.loadTargets es) (.ok nodes) f' ks) (hnone : ∀ c, c ∉ f'.causes) :
    nodes.map Prod.fst = es := by
  obtain ⟨_, _, hlooked⟩ := yields_loadTargets h
  obtain ⟨loaded, _, _, _, hrequest, h, _⟩ := Staged.Yields.of_request_bind h
  obtain ⟨_, hloaded⟩ := Engine.Demand.Yields.of_values hrequest
  obtain rfl := Except.ok.inj (Staged.Yields.of_modify_bind h).of_pure.1
  refine map_fst_of_looked fun e he => ?_
  have hown := lookedUp_among hloaded
    (Listing.mem_distinct.mpr (List.mem_map_of_mem (f := fun e : Edge => e.label.package) he))
  obtain ⟨r, hr, hcause⟩ := hlooked e he
  obtain rfl := hr.unique hown
  cases hlookup : Package.lookup (Package.among loaded e.label) e.label.name with
  | ok t => exact ⟨t, rfl⟩
  | error x => exact absurd (hcause x hlookup) (hnone _)

/-- Without causes, what is loaded for edges makes up everything that they expand to. -/
theorem yields_edges_expanded (hst : Consistent services st) {es : List Edge}
    {nodes : List (Edge × Target)} {deps : List Dependency} {f₁ f₂ : Findings}
    {ks₁ ks₂ : List AnalysisKey}
    (hnodes : Staged.Yields st f (s.loadTargets es) (.ok nodes) f₁ ks₁)
    (hnone : ∀ c, c ∉ f₁.causes)
    (hdeps : Staged.Yields st f₁ (s.dependencies nodes) (.ok deps) f₂ ks₂) :
    ∃ parts, s.Expanded st es parts deps := by
  have hexpanded :=
    yields_dependencies_expanded hst (yields_loadTargets_ok hnodes).2 hdeps
  rwa [yields_loadTargets_all hnodes hnone] at hexpanded

/-- An analyzed dependency with the providers of the dependency's aspects, which are merged in
order; nothing else of it is changed. -/
def WithAspects (st : Store analysisSpace) (d : Dependency) (own t : AnalyzedTarget) : Prop :=
  ∃ values providers, List.Forall₂ (AspectAt st) (AspectKey.ofDependency d own) values ∧
    values.foldlM (fun ps v => ps.merge v.providers) own.value.providers = .ok providers ∧
    t = { own with value := { own.value with providers := providers } }

/-- An entry for a dependency has the value that is cached for the dependency's own key, with what
the dependency's aspects provide. -/
def Supplied (st : Store analysisSpace) (d : Dependency) (t : AnalyzedTarget) : Prop :=
  ∃ own, Batch.Analyzed st d own ∧ WithAspects st d own t

theorem withAspects_of_none {d : Dependency} {own : AnalyzedTarget}
    (h : AspectKey.ofDependency d own = []) : WithAspects st d own own :=
  ⟨[], own.value.providers, h ▸ .nil, rfl, rfl⟩

theorem values_of_reads {keys : List AspectKey} {results : List (Except Failure AspectValue)}
    (h : st.Reads (S := analysisSpace) AnalysisKey.aspect (fun _ r => r) keys results)
    (hall : ∀ a ∈ keys, ∃ v, AspectAt st a v) :
    ∃ values, results = values.map .ok ∧ List.Forall₂ (AspectAt st) keys values := by
  induction h with
  | nil => exact ⟨[], rfl, .nil⟩
  | @cons a r keys results hv _ ih =>
      obtain ⟨⟨v, hown⟩, hrest⟩ := List.forall_mem_cons.mp hall
      obtain ⟨values, rfl, hvalues⟩ := ih hrest
      obtain ⟨w, hw, rfl⟩ := hv
      obtain rfl := Option.some.inj (hown.symm.trans hw)
      exact ⟨v :: values, rfl, .cons hown hvalues⟩

/-- What is dealt out to each dependency: the values of its own aspects, in order. -/
theorem forall₂_dealOut {wanted : List (AnalyzedTarget × List AspectKey)}
    {values : List AspectValue}
    (h : List.Forall₂ (AspectAt st) (wanted.flatMap Prod.snd) values) :
    List.Forall₂ (fun w e => e.1 = w.1 ∧ ∃ own, List.Forall₂ (AspectAt st) w.2 own ∧
      e.2 = w.2.zip (own.map .ok)) wanted
      (dealOut wanted (values.map .ok : List (Except Failure AspectValue))) := by
  induction wanted generalizing values with
  | nil => exact .nil
  | cons w wanted ih =>
      obtain ⟨t, keys⟩ := w
      rw [List.flatMap_cons] at h
      have hown := List.forall₂_take keys.length h
      have hrest := List.forall₂_drop keys.length h
      rw [List.take_left] at hown
      rw [List.drop_left] at hrest
      rw [dealOut, ← List.map_drop]
      refine .cons ⟨rfl, _, hown, ?_⟩ (ih hrest)
      rw [List.map_take, zip_take_length]

theorem merge_of_addProviders {t t' : AnalyzedTarget} {keys : List AspectKey}
    {values : List AspectValue} (hlength : keys.length = values.length)
    (h : s.addProviders t (keys.zip (values.map .ok)) = .ok t') : ∃ providers,
      values.foldlM (fun ps v => ps.merge v.providers) t.value.providers = .ok providers ∧
      t' = { t with value := { t.value with providers := providers } } := by
  obtain ⟨providers, hproviders, ht⟩ := addProviders_eq_ok_iff.mp h
  have hresults : (keys.zip (values.map .ok)).map Prod.snd =
      (values.map .ok : List (Except Failure AspectValue)) :=
    List.map_snd_zip (by simp [hlength])
  rw [hresults, provided_values, List.foldlM_map] at hproviders
  exact ⟨providers, hproviders, ht⟩

/-- If applying aspects ends with values, each is that of its dependency with the providers of the
dependency's aspects. -/
theorem yields_applyAspects_supplied {deps : List Dependency} {own values : List AnalyzedTarget}
    (howned : List.Forall₂ (Batch.Analyzed st) deps own)
    (h : Staged.Yields st f (s.applyAspects deps own) (.ok values) f' ks) :
    List.Forall₂ (Supplied st) deps values := by
  have hcached : ∀ a ∈ aspectKeys deps own, ∃ v, AspectAt st a v := by
    rcases yields_applyAspects h with ⟨_, _, _, hcached, _⟩ | ⟨_, hfailed, _⟩ | ⟨_, _, hfailed, _⟩
    · exact hcached
    · cases hfailed
    · cases hfailed
  have hkeys : (((deps.zip own).map fun e => (e.2, AspectKey.ofDependency e.1 e.2)).flatMap
      Prod.snd) = aspectKeys deps own := by
    rw [List.flatMap_map]
    rfl
  have hmerged : List.Forall₂ (fun e t => WithAspects st e.1 e.2 t) (deps.zip own) values := by
    unfold applyAspects at h
    dsimp only at h
    split at h
    next hempty =>
      -- No dependency has any aspect.
      obtain ⟨rfl, _, _⟩ := Staged.Yields.of_pure_ok h
      rw [List.isEmpty_iff, List.flatMap_map, List.flatMap_eq_nil_iff] at hempty
      have hsame : List.Forall₂ (fun e t => WithAspects st e.1 e.2 t) (deps.zip values)
          ((deps.zip values).map Prod.snd) :=
        List.forall₂_map_right_iff.mpr
          (List.forall₂_same.mpr fun e he => withAspects_of_none (hempty e he))
      rwa [List.map_snd_zip (Nat.le_of_eq howned.length_eq.symm)] at hsame
    next =>
      obtain ⟨results, _, _, _, hrequest, h, _⟩ := Staged.Yields.of_request_bind h
      obtain ⟨_, hresults⟩ := Engine.Demand.Yields.of_values hrequest
      have h := Staged.Yields.of_modify_bind h
      obtain ⟨merged, _, _, _, hsequence, h, _⟩ := h.of_bind_ok
      split at h
      next => cases h.of_throw.1
      next =>
        obtain ⟨rfl, _, _⟩ := h.of_pure_ok
        obtain ⟨found, rfl, hfound⟩ := values_of_reads hresults (hkeys ▸ hcached)
        have hdealt := forall₂_comp (forall₂_dealOut hfound) (List.forall₂_map_left_iff.mp
          (sequence_eq_ok hsequence.of_ofExcept.1.symm))
        refine (List.forall₂_map_left_iff.mp hdealt).imp fun e t he => ?_
        obtain ⟨share, ⟨hfirst, vs, hvs, hshare⟩, hadd⟩ := he
        rw [hfirst, hshare] at hadd
        obtain ⟨providers, hproviders, ht⟩ := merge_of_addProviders hvs.length_eq hadd
        exact ⟨vs, providers, hvs, hproviders, ht⟩
  exact forall₂_of_zip howned hmerged

/-- The entries of dependencies are supplied, one for each dependency and in their order. -/
theorem yields_fanOut_supplied {deps : List Dependency} {b : DependencyBundle}
    (h : Staged.Yields st f (s.fanOut deps) (.ok b) f' ks) :
    b.entries.map Prod.fst = deps ∧ ∀ e ∈ b.entries, Supplied st e.1 e.2 := by
  obtain ⟨own, _, _, _, hown, h, _⟩ := h.of_bind_ok
  obtain ⟨values, _, _, _, hvalues, h, _⟩ := h.of_bind_ok
  obtain ⟨rfl, _, _⟩ := Staged.Yields.of_pure_ok h
  have hsupplied := yields_applyAspects_supplied (Batch.yields_resolve_ok hown) hvalues
  exact ⟨List.map_fst_zip (Nat.le_of_eq hsupplied.length_eq),
    fun e he => List.forall₂_zip hsupplied he⟩

structure Bundles (st : Store analysisSpace) (s : EdgeSource) (es : List Edge)
    (parts : List (List Dependency)) (b : DependencyBundle) : Prop where
  edges : s.Collects es
  expanded : s.Expanded st es parts (b.entries.map Prod.fst)
  /-- A dependency that comes up again is left out just if the target has a configuration. -/
  once_iff : b.entries.map Prod.fst = Listing.distinct parts.flatten ↔
    s.configuration.isSome = true ∨ parts.flatten.Nodup
  supplied : ∀ e ∈ b.entries, Supplied st e.1 e.2

theorem Expanded.once_iff {es : List Edge} {parts : List (List Dependency)}
    {deps : List Dependency} (h : s.Expanded st es parts deps) :
    deps = Listing.distinct parts.flatten ↔
      s.configuration.isSome = true ∨ parts.flatten.Nodup := by
  obtain ⟨_, h⟩ := h
  cases hparent : s.configuration with
  | none =>
      rw [hparent] at h
      subst h
      rw [eq_comm, Listing.distinct_eq_self_iff]
      simp
  | some parent =>
      rw [hparent] at h
      exact ⟨fun _ => .inl rfl, fun _ => h⟩

theorem yields_bundle_expanded (hst : Consistent services st) {b : DependencyBundle}
    (h : Staged.Yields st f s.bundle (.ok b) f' ks) (hnone : f'.causes.isEmpty = true) :
    ∃ es parts, s.edges = .ok es ∧ s.Bundles st es parts b := by
  rw [bundle_eq] at h
  obtain ⟨es, f₁, _, _, hes, hrest, _⟩ := h.of_bind_ok
  obtain ⟨hedges, rfl, _⟩ := hes.of_ofExcept
  obtain ⟨nodes, f₂, _, _, hnodes, hrest, _⟩ := hrest.of_bind_ok
  obtain ⟨deps, f₃, _, _, hdeps, hfan, _⟩ := hrest.of_bind_ok
  have hkept : ∀ c, c ∉ f₂.causes := fun c hc => by
    have hlast := s.fanOut_keeps deps f₃ _ f' _ hfan c
      (s.dependencies_keeps nodes f₂ _ f₃ _ hdeps c hc)
    rw [Causes.isEmpty_eq_false hlast] at hnone
    cases hnone
  obtain ⟨parts, hexpanded⟩ := yields_edges_expanded hst hnodes hkept hdeps
  obtain ⟨rfl, hsupplied⟩ := yields_fanOut_supplied hfan
  exact ⟨es, parts, hedges.symm, collects_of_edges hedges.symm, hexpanded, hexpanded.once_iff,
    hsupplied⟩

/-- Let an engine begin with nothing and go through any history, and let the dependencies of a
target, or of an aspect applied to it, be computed in it without any cause. Then the bundle consists
of what the edges of the target expand to, in edge order: no edge is left out, and each expands to
one dependency without a configuration, to one in the trimmed options that its transition leads to,
or to one for each part of a split. Each entry has the value that is cached for its own key, with
the providers of its aspects. The dependencies are those of the edges taken once each just if the
target has a configuration or none of them comes up again. -/
theorem bundle_expands_edges {start : AnalysisSession} (empty : start.store = {})
    {history : List (Engine.Call analysisSpace)}
    (proper : ∀ call ∈ history, call.Proper (AnalysisKey.computation services))
    {nest : Engine.Nest analysisSpace} {session : AnalysisSession}
    (hs : session.store = (start.after history).store) {b : DependencyBundle}
    (hrun : ((s.bundle.runFrom f).run.run nest { session := session }).1 = .ok (.ok b, f'))
    (hnone : f'.causes.isEmpty = true) :
    ∃ es parts, s.edges = .ok es ∧ s.Bundles session.store es parts b := by
  have hst := consistent_after empty proper hs
  obtain ⟨ks, es', hyields⟩ := Engine.Demand.yields_of_run (s.bundle_has f) hrun
  exact yields_bundle_expanded hst ⟨es', hyields⟩ hnone

end EdgeSource
end BuildAnalysis

/-! A target with a split dependency and with dependencies that come up twice, and one without a
configuration. -/

namespace BuildAnalysis.ExpansionSample

open BuiltinRules.AliasSample (loading loading_proper rule start)
open FragmentsSample (compute compute_interrupts fast gccLabel goLabel libraries nodup_deps)

def dataLabel : Label := ⟨goLabel.package, ⟨"data", rfl, by decide⟩⟩

def toolLabel : Label := ⟨goLabel.package, ⟨"tool", rfl, by decide⟩⟩

def listingLabel : Label := ⟨goLabel.package, ⟨"listing", rfl, by decide⟩⟩

theorem nodup_split : ((Rule.constraintsDecl :: [.ofDecl (.dep "deps"),
    .ofDecl { AttrDecl.dep "modes" with transition := .custom (.split "jvm" "mode" ["fast", "slow"]) }
    ]).map fun a => a.name).Nodup := by decide

def data : Target := { label := dataLabel, kind := .sourceFile, values := [] }

/-- Depends on the library twice, on a file, and on the library in two modes. -/
def tool : Target :=
  { label := toolLabel
    kind := .rule (rule "plain" [.ofDecl (.dep "deps"), .ofDecl { AttrDecl.dep "modes" with
      transition := .custom (.split "jvm" "mode" ["fast", "slow"]) }] nodup_split)
    values := [("deps", .labelList [gccLabel, dataLabel, gccLabel]),
      ("modes", .labelList [gccLabel])] }

/-- Has no configuration and lists a file twice. -/
def listing : Target :=
  { label := listingLabel
    kind := .rule { rule "plain" [.ofDecl (.dep "deps")] nodup_deps with configurable := false }
    values := [("deps", .labelList [dataLabel, dataLabel])] }

def tools : Package where
  label := goLabel.package
  targets := [data, tool, listing]
  owned := by decide
  distinct := by decide

def history : List (Engine.Call analysisSpace) :=
  [loading [libraries, tools], .computeMany compute {} true
    [.target ⟨toolLabel, some fast.key, none⟩, .target ⟨listingLabel, none, none⟩]]

def session : AnalysisSession := Engine.Session.after start history

def bundled (s : EdgeSource) :
    Except Engine.Suspension (Except Abort DependencyBundle × Findings) :=
  ((s.bundle.runFrom {}).run.run (Engine.nestWithin compute {}) { session := session }).1

theorem history_proper : ∀ call ∈ history, call.Proper compute :=
  List.forall_mem_cons.mpr ⟨loading_proper _, List.forall_mem_singleton.mpr compute_interrupts⟩

theorem bundled_eq_ok (s : EdgeSource) (ds : List Dependency)
    (h : (Staged.ended? (bundled s)).map (fun p =>
      (p.2.causes.isEmpty, p.1.entries.map Prod.fst)) = some (true, ds)) :
    ∃ b f, bundled s = .ok (.ok b, f) ∧ f.causes.isEmpty = true ∧
      b.entries.map Prod.fst = ds := by
  obtain ⟨⟨b, f⟩, hrun, hends⟩ := Option.map_eq_some_iff.mp h
  obtain ⟨hnone, hds⟩ := Prod.mk.inj hends
  exact ⟨b, f, Staged.ended?_eq_some hrun, hnone, hds⟩

def slow : Configuration := .ofOptions (fast.options.setOption "jvm" "mode" "slow")

/-- The library once, the file, and the library in two modes. -/
def toolDependencies : List Dependency :=
  [{ kind := .attribute "deps", label := gccLabel, configuration := some fast },
    { kind := .attribute "deps", label := dataLabel, configuration := none },
    { kind := .attribute "modes", label := gccLabel, configuration := some fast
      splitKey := some "fast" },
    { kind := .attribute "modes", label := gccLabel, configuration := some slow
      splitKey := some "slow" }]

theorem bundle_expands_edges_tool : ∃ b f,
    bundled ⟨tool, some fast, ∅, none, none⟩ = .ok (.ok b, f) ∧ f.causes.isEmpty = true ∧
    b.entries.map Prod.fst = toolDependencies ∧
    ∃ es parts, EdgeSource.edges ⟨tool, some fast, ∅, none, none⟩ = .ok es ∧
      EdgeSource.Bundles session.store ⟨tool, some fast, ∅, none, none⟩ es parts b := by
  obtain ⟨b, f, hrun, hnone, hds⟩ := bundled_eq_ok ⟨tool, some fast, ∅, none, none⟩ toolDependencies
    (by decide +kernel)
  exact ⟨b, f, hrun, hnone, hds,
    EdgeSource.bundle_expands_edges rfl history_proper rfl hrun hnone⟩

def listed : Dependency := { kind := .attribute "deps", label := dataLabel, configuration := none }

/-- A bundle with the same dependency twice. No list without its repetitions is like that. -/
theorem unconfigured_bundle_repeats : ∃ b f,
    bundled ⟨listing, none, ∅, none, none⟩ = .ok (.ok b, f) ∧ f.causes.isEmpty = true ∧
    b.entries.map Prod.fst = [listed, listed] ∧
    ∀ ds, b.entries.map Prod.fst ≠ Listing.distinct ds := by
  obtain ⟨b, f, hrun, hnone, hds⟩ := bundled_eq_ok ⟨listing, none, ∅, none, none⟩
    [listed, listed] (by decide +kernel)
  refine ⟨b, f, hrun, hnone, hds, fun ds heq => ?_⟩
  have hnodup : [listed, listed].Nodup := by
    rw [← hds, heq]
    exact Listing.nodup_addAll List.nodup_nil ds
  exact (List.nodup_cons.mp hnodup).1 List.mem_cons_self

end BuildAnalysis.ExpansionSample
