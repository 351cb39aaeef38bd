import BuildAnalysis.Proofs.Analysis.Aggregation
import BuildAnalysis.Proofs.Attribute.Labels

/-!
# What a target fans out to

The edges of a target come from its dependency attributes and from its toolchains. Those of an
attribute lead to labels that are written in the attribute, all with the same transition. Each
dependency of a target comes from one of its edges, in a configuration that the transition of the
edge leads to. A cached value has such dependencies and no others.
-/
namespace BuildAnalysis

open Engine (Store)

variable {services : Option Services} {st : Store analysisSpace} {f f' : Findings}
  {ks : List AnalysisKey}

theorem Target.attributes_eq_of_name {t : Target} {a b : RuleAttr × AttrExpr}
    (ha : a ∈ t.attributes) (hb : b ∈ t.attributes) (hname : a.1.name = b.1.name) : a = b := by
  obtain ⟨r, hr, rfl⟩ := List.mem_map.mp ha
  obtain ⟨q, hq, rfl⟩ := List.mem_map.mp hb
  have hdistinct : (t.declared.map fun a => a.name).Nodup := by
    unfold declared
    cases t.kind with
    | rule r => exact r.distinctNames
    | sourceFile => exact List.nodup_nil
  obtain rfl : r = q := List.inj_on_of_nodup_map hdistinct hr hq hname
  rfl

namespace EdgeSource

variable {s : EdgeSource}

/-- An edge of a target's attribute: its label is written in the attribute, and the attribute
decides its transition. -/
structure OfAttribute (s : EdgeSource) (a : RuleAttr × AttrExpr) (e : Edge) : Prop where
  declared : a ∈ s.target.attributes
  dependency : a.1.kind = .dep
  kind : e.kind = .attribute a.1.name
  label : e.label ∈ a.2.labelOccurrences
  transition : s.transition a.1.toAttrDecl = .ok e.transition

theorem OfAttribute.mem_unconfiguredDeps {a : RuleAttr × AttrExpr} {e : Edge}
    (h : s.OfAttribute a e) : e.label ∈ s.target.unconfiguredDeps :=
  Target.mem_unconfiguredDeps.mpr ⟨a, h.declared, h.dependency, h.label⟩

theorem mem_attributeEdges {a : AttrDecl} {x : AttrExpr} {kind : DependencyKind}
    {aspects : List Aspect} {es : List Edge} (h : s.attributeEdges a x kind aspects = .ok es)
    {e : Edge} (he : e ∈ es) : a.kind = .dep ∧ e.kind = kind ∧ e.label ∈ x.labelOccurrences ∧
      s.transition a = .ok e.transition := by
  unfold attributeEdges at h
  split at h
  next =>
    cases h
    cases he
  next hkind =>
    split at h
    next => cases h
    next =>
      cases h
      cases he
    next ls _ hls =>
      split at h
      next => cases h
      next t ht =>
        cases h
        obtain ⟨l, hl, rfl⟩ := List.mem_map.mp he
        refine ⟨by simpa using hkind, rfl, ?_, ht⟩
        unfold labels at hls
        split at hls
        next v hv =>
          cases hls
          exact Conditions.labels_configure hv hl
        next => cases hls

theorem mem_allAttributeEdges (target : s.aspect = none) {own : List Edge}
    (h : s.allAttributeEdges = .ok own) {e : Edge} (he : e ∈ own) :
    ∃ a, s.OfAttribute a e := by
  unfold allAttributeEdges at h
  rw [target] at h
  dsimp only at h
  cases hparts : sequence (s.target.attributes.map fun e =>
      s.attributeEdges e.1.toAttrDecl e.2 (.attribute e.1.name) e.1.aspects) with
  | error x =>
      rw [hparts] at h
      cases h
  | ok parts =>
      rw [hparts] at h
      obtain rfl := Except.ok.inj h
      obtain ⟨part, hpart, he⟩ := List.mem_flatten.mp he
      obtain ⟨a, ha, hedges⟩ := List.mem_map.mp (mem_of_sequence_eq_ok hparts hpart)
      obtain ⟨hdep, hkind, hlabel, htransition⟩ := mem_attributeEdges hedges he
      exact ⟨a, ha, hdep, hkind, hlabel, htransition⟩

/-- An edge of a target is one of an attribute or leads to a toolchain. -/
theorem mem_edges (target : s.aspect = none) {es : List Edge} (h : s.edges = .ok es) {e : Edge}
    (he : e ∈ es) : (∃ a, s.OfAttribute a e) ∨ ∃ group, e.kind = .toolchain group := by
  unfold edges at h
  cases hattributes : s.allAttributeEdges with
  | error x =>
      rw [hattributes] at h
      cases h
  | ok own =>
      rw [hattributes] at h
      obtain rfl := Except.ok.inj h
      rcases List.mem_append.mp he with he | he
      · exact .inl (mem_allAttributeEdges target hattributes he)
      · obtain ⟨c, _, he⟩ := List.mem_flatMap.mp he
        obtain ⟨l, _, rfl⟩ := List.mem_map.mp he
        exact .inr ⟨c.1, rfl⟩

theorem OfAttribute.transition_eq {a b : RuleAttr × AttrExpr} {e e' : Edge}
    (h : s.OfAttribute a e) (h' : s.OfAttribute b e') (same : e'.kind = e.kind) :
    e'.transition = e.transition := by
  have hname : b.1.name = a.1.name := by
    have hkinds := h'.kind.symm.trans (same.trans h.kind)
    exact DependencyKind.attribute.inj hkinds
  obtain rfl := Target.attributes_eq_of_name h'.declared h.declared hname
  exact Except.ok.inj (h'.transition.symm.trans h.transition)

/-- How an edge becomes a dependency: without a configuration, or in one that its transition leads
to from the configuration of the target, trimmed to the cached fragments of its label. -/
structure Becomes (st : Store analysisSpace) (s : EdgeSource) (e : Edge) (d : Dependency) :
    Prop where
  kind : d.kind = e.kind
  label : d.label = e.label
  target : ∃ t, TargetAt st e.label t
  configuration : ∀ c, d.configuration = some c → ∃ parent r o,
    s.configuration = some parent ∧ st.value? (.fragments e.label) = some r ∧
      c.key = trimmed (some r) o ∧
      ((e.transition.apply parent.options = .ok (.patched o) ∧ d.splitKey = none) ∨
        ∃ os key, e.transition.apply parent.options = .ok (.split os) ∧ (key, o) ∈ os ∧
          d.splitKey = some key)

theorem mem_configurationsOf {parent : Configuration}
    {fragments : List (Label × Except Failure (SortedSet String))} {e : Edge} {t : Target}
    {out : List (Edge × Option String × Option ConfigurationKey)}
    (h : s.configurationsOf parent fragments e t = .ok out)
    {x : Edge × Option String × Option ConfigurationKey} (hx : x ∈ out) :
    x.1 = e ∧ ∀ c, x.2.2 = some c → t.isConfigurable = true ∧ ∃ o,
      c = trimmed (Listing.find? e.label fragments) o ∧
        ((e.transition.apply parent.options = .ok (.patched o) ∧ x.2.1 = none) ∨
          ∃ os key, e.transition.apply parent.options = .ok (.split os) ∧ (key, o) ∈ os ∧
            x.2.1 = some key) := by
  unfold configurationsOf at h
  split at h
  next =>
    cases h
    obtain rfl := List.mem_singleton.mp hx
    exact ⟨rfl, fun c hc => by cases hc⟩
  next hconfigurable =>
    have hconfigurable : t.isConfigurable = true := by simpa using hconfigurable
    dsimp only at h
    split at h
    next => cases h
    next =>
      cases h
      obtain rfl := List.mem_singleton.mp hx
      exact ⟨rfl, fun c hc => by cases hc⟩
    next o ho =>
      cases h
      obtain rfl := List.mem_singleton.mp hx
      refine ⟨rfl, fun c hc => ⟨hconfigurable, o, (Option.some.inj hc).symm, .inl ⟨ho, rfl⟩⟩⟩
    next os ho =>
      cases h
      obtain ⟨p, hp, rfl⟩ := List.mem_map.mp hx
      exact ⟨rfl, fun c hc => ⟨hconfigurable, p.2, (Option.some.inj hc).symm,
        .inr ⟨os, p.1, ho, hp, rfl⟩⟩⟩

/-- Every dependency of a target comes from an edge whose target was loaded. -/
theorem becomes_of_mem_dependencies (hst : Consistent services st)
    {nodes : List (Edge × Target)} (hnodes : ∀ n ∈ nodes, TargetAt st n.1.label n.2)
    {deps : List Dependency} (h : Staged.Yields st f (s.dependencies nodes) (.ok deps) f' ks)
    {d : Dependency} (hd : d ∈ deps) : ∃ n ∈ nodes, s.Becomes st n.1 d := by
  cases hparent : s.configuration with
  | none =>
      unfold dependencies at h
      rw [hparent] at h
      obtain ⟨rfl, _, _⟩ := Staged.Yields.of_pure_ok h
      obtain ⟨n, hn, rfl⟩ := List.mem_map.mp hd
      exact ⟨n, hn, rfl, rfl, ⟨_, hnodes n hn⟩, fun c hc => by cases hc⟩
  | some parent =>
      obtain ⟨fragments, expanded, hfragments, hexpanded, rfl⟩ :=
        yields_dependencies_ok hst hparent h
      obtain ⟨x, hx, rfl⟩ := List.mem_map.mp (Listing.mem_distinct.mp hd)
      obtain ⟨out, hout, hx⟩ := List.mem_flatten.mp hx
      obtain ⟨n, hn, hconfigurations⟩ := Engine.exists_of_mem_right hexpanded hout
      obtain ⟨hedge, hconfigured⟩ := mem_configurationsOf hconfigurations hx
      refine ⟨n, hn, congrArg Edge.kind hedge, congrArg Edge.label hedge, ⟨_, hnodes n hn⟩,
        fun c hc => ?_⟩
      obtain ⟨key, hkey, rfl⟩ := Option.map_eq_some_iff.mp hc
      obtain ⟨hconfigurable, o, htrimmed, hleads⟩ := hconfigured key hkey
      obtain ⟨r, hr, hfind⟩ := hfragments n hn hconfigurable
      exact ⟨parent, r, o, hparent, hr,
        htrimmed.trans (congrArg (fun needed => trimmed needed o) hfind), hleads⟩

end EdgeSource

namespace TargetKey

variable {k : TargetKey}

/-- On a store the evaluation of a target gets to its dependencies. -/
def FansOut (st : Store analysisSpace) (k : TargetKey) (x : Fan) : Prop :=
  ∃ f f' ks, Staged.Yields st f k.prepare (.ok (some x)) f' ks

variable {x : Fan}

/-- What the evaluation gets to on a store, if it is evaluated there from nothing found. -/
def fan? (st : Store analysisSpace) (k : TargetKey) : Option Fan :=
  ((Staged.runFrom k.prepare {}).run.replay st none).bind fun q =>
    match q.result with
    | .ok (.ok x, _) => x
    | _ => none

theorem fansOut_of_fan? (h : fan? st k = some x) : k.FansOut st x := by
  obtain ⟨q, hq, hx⟩ := Option.bind_eq_some_iff.mp h
  split at hx
  next y f' hresult =>
    subst hx
    exact ⟨{}, f', q.requested, q.effects, none, q, hq, hresult, rfl, rfl⟩
  next => cases hx

/-- What a target fans out to: its own target was loaded, its edges are those of its source, and
each dependency comes from one of them. -/
structure Fan.Grounded (st : Store analysisSpace) (k : TargetKey) (x : Fan) : Prop where
  target : TargetAt st k.label x.loaded.target
  configuration : x.source.configuration = k.configuration.map Configuration.mk
  edges : x.source.edges = .ok x.edges
  dependencies : ∀ d ∈ x.dependencies, ∃ e ∈ x.edges, x.source.Becomes st e d

theorem Fan.Grounded.loaded (h : x.Grounded st k) {d : Dependency} (hd : d ∈ x.dependencies) :
    ∃ t, TargetAt st d.label t := by
  obtain ⟨e, _, hbecomes⟩ := h.dependencies d hd
  rw [hbecomes.label]
  exact hbecomes.target

theorem Fan.Grounded.ofAttribute (h : x.Grounded st k) {e : Edge} (he : e ∈ x.edges)
    {attr : String} (hkind : e.kind = .attribute attr) : ∃ a, x.source.OfAttribute a e := by
  refine (EdgeSource.mem_edges rfl h.edges he).resolve_right ?_
  rintro ⟨group, hgroup⟩
  cases hkind.symm.trans hgroup

theorem FansOut.grounded (hst : Consistent services st) (h : k.FansOut st x) :
    x.Grounded st k := by
  obtain ⟨f, f', ks, h⟩ := h
  obtain ⟨htarget, hconfiguration, _⟩ := yields_prepare hst h
  obtain ⟨loaded, _, _, _, _, h, _⟩ := h.of_bind_ok
  split at h
  next =>
    obtain ⟨_, _, _, _, _, h, _⟩ := Staged.Yields.of_request_bind h
    cases (Staged.Yields.of_pure_ok h).1
  next =>
    obtain ⟨contexts, _, _, _, _, h, _⟩ := h.of_bind_ok
    obtain ⟨conditions, _, _, _, _, h, _⟩ := h.of_bind_ok
    obtain ⟨es, _, _, _, hes, h, _⟩ := h.of_bind_ok
    obtain ⟨nodes, _, _, _, hnodes, h, _⟩ := h.of_bind_ok
    obtain ⟨deps, _, _, _, hdeps, h, _⟩ := h.of_bind_ok
    obtain rfl := Option.some.inj (Staged.Yields.of_pure_ok h).1
    obtain ⟨hsub, hnodes⟩ := EdgeSource.yields_loadTargets_ok hnodes
    refine ⟨htarget, hconfiguration, hes.of_ofExcept.1.symm, fun d hd => ?_⟩
    obtain ⟨n, hn, hbecomes⟩ := EdgeSource.becomes_of_mem_dependencies hst hnodes hdeps hd
    exact ⟨n.1, hsub.subset (List.mem_map_of_mem hn), hbecomes⟩

/-- The entries that dependencies come to are those of dependencies that were fanned out to. -/
theorem fst_mem_of_fanOut {b : DependencyBundle}
    (h : Staged.Yields st f (k.fanOut x) (.ok b) f' ks) {e : Dependency × AnalyzedTarget}
    (he : e ∈ b.entries) : e.1 ∈ x.dependencies := by
  obtain ⟨bundle, _, _, _, hfan, h, _⟩ := h.of_bind_ok
  have h := Staged.Yields.of_get_bind h
  split at h
  next => cases (Staged.Yields.of_throw_bind (Staged.Yields.of_get_bind h)).1
  next =>
    obtain ⟨rfl, _, _⟩ := Staged.Yields.of_pure_ok h
    obtain ⟨_, _, _, _, _, hfan, _⟩ := hfan.of_bind_ok
    obtain ⟨values, _, _, _, _, hfan, _⟩ := hfan.of_bind_ok
    obtain ⟨rfl, _, _⟩ := Staged.Yields.of_pure_ok hfan
    exact (List.of_mem_zip he).1

/-- The dependencies of a cached value are those that its target fans out to. -/
theorem fansOut_of_mem_dependencies (hst : Consistent services st) {v : TargetValue}
    (hv : st.value? (.target k) = some (.ok v)) {l : TargetKey} (hl : l ∈ v.dependencies) :
    ∃ x, k.FansOut st x ∧ ∃ d ∈ x.dependencies, d.key = l := by
  obtain ⟨s, found, _, _, h⟩ := value?_target hst hv
  rw [evaluate_eq_fanOut] at h
  obtain ⟨fan, _, _, _, hprepare, h, _⟩ := h.of_bind_ok
  cases fan with
  | none =>
      obtain ⟨rfl, _, _⟩ := Staged.Yields.of_pure_ok h
      cases hl
  | some x =>
      refine ⟨x, ⟨_, _, _, hprepare⟩, ?_⟩
      obtain ⟨bundle, _, _, _, hbundle, h, _⟩ := h.of_bind_ok
      have hkeys : v.dependencies = bundle.keys := by
        obtain ⟨value, _, _, _, _, h, _⟩ := h.of_bind_ok
        have h := Staged.Yields.of_get_bind h
        obtain ⟨rfl, _, _⟩ := Staged.Yields.of_pure_ok h
        rfl
      rw [hkeys] at hl
      obtain ⟨e, he, rfl⟩ := List.mem_map.mp (Listing.mem_distinct.mp hl)
      exact ⟨e.1, fst_mem_of_fanOut hbundle he, rfl⟩

end TargetKey
end BuildAnalysis
