import BuildAnalysis.Proofs.Analysis.Fragments
import BuildAnalysis.Proofs.Configuration.Agreement

/-!
# Options along attributes

A route goes down from a configured target, one attribute at a time. At each hop the transition of
the attribute is applied and the options that it leads to are trimmed, to other fragments at each.
What the target at the end requires is among the fragments of every label on the way, so it is not
trimmed off anywhere: in the fragments that the target requires, its configuration has the options
that the same transitions lead to without trimming.
-/
namespace BuildAnalysis

open Engine (Store)
open Relation (ReflTransGen)

namespace TargetKey

variable {services : Option Services} {st : Store analysisSpace} {k l m : TargetKey}
  {hop : Transition × Option String} {hops : List (Transition × Option String)}

/-- A key fans out to another by an attribute with this transition, and with this split key if the
transition splits. -/
def Hop (st : Store analysisSpace) (k : TargetKey) (hop : Transition × Option String)
    (l : TargetKey) : Prop :=
  ∃ x, k.FansOut st x ∧ ∃ e ∈ x.edges, ∃ d ∈ x.dependencies, (∃ attr, e.kind = .attribute attr) ∧
    d.kind = e.kind ∧ d.label = e.label ∧ (e.transition, d.splitKey) = hop ∧ d.key = l

inductive Route (st : Store analysisSpace) :
    TargetKey → List (Transition × Option String) → TargetKey → Prop
  | nil (k : TargetKey) : Route st k [] k
  | cons {k l m : TargetKey} {hop : Transition × Option String}
      {hops : List (Transition × Option String)} (first : Hop st k hop l)
      (rest : Route st l hops m) : Route st k (hop :: hops) m

theorem Hop.attributeHop (h : Hop st k hop l) : AttributeHop st k l := by
  obtain ⟨x, hx, e, _, d, hd, ⟨attr, hattr⟩, hkind, _, _, hkey⟩ := h
  exact ⟨x, hx, d, hd, ⟨attr, hkind.trans hattr⟩, hkey⟩

theorem Hop.exists_target (hst : Consistent services st) (h : Hop st k hop l) :
    ∃ t, TargetAt st l.label t := by
  obtain ⟨x, hx, _, _, d, hd, _, _, _, _, rfl⟩ := h
  exact (hx.grounded hst).loaded hd

/-- A hop leads from a configuration to one: the options that its transition leads to, trimmed to
the fragments cached for the label. -/
theorem Hop.configuration (hst : Consistent services st) (h : Hop st k hop l)
    {c : ConfigurationKey} (hc : l.configuration = some c) : ∃ parent r o,
      k.configuration = some parent ∧ st.value? (.fragments l.label) = some r ∧
        hop.1.leadsTo? hop.2 parent.options = some o ∧ c = EdgeSource.trimmed (some r) o := by
  obtain ⟨x, hx, e, he, d, hd, ⟨attr, hattr⟩, hkind, hlabel, rfl, rfl⟩ := h
  obtain ⟨c', hc', rfl⟩ : ∃ c', d.configuration = some c' ∧ c'.key = c :=
    Option.map_eq_some_iff.mp hc
  have hgrounded := hx.grounded hst
  obtain ⟨e', he', hbecomes⟩ := hgrounded.dependencies d hd
  -- The dependency may come from another edge of the attribute; its transition is the same.
  have hsame : e'.kind = e.kind := hbecomes.kind.symm.trans hkind
  obtain ⟨a, ha⟩ := hgrounded.ofAttribute he hattr
  obtain ⟨b, hb⟩ := hgrounded.ofAttribute he' (hsame.trans hattr)
  have htransition : e'.transition = e.transition := ha.transition_eq hb hsame
  obtain ⟨parent, r, o, hparent, hr, hkey, hleads⟩ := hbecomes.configuration c' hc'
  rw [hgrounded.configuration] at hparent
  obtain ⟨p, hp, rfl⟩ := Option.map_eq_some_iff.mp hparent
  have hfragments : st.value? (.fragments d.label) = some r := hbecomes.label ▸ hr
  refine ⟨p, r, o, hp, hfragments, ?_, hkey⟩
  rw [← htransition]
  rcases hleads with ⟨hpatched, hsplit⟩ | ⟨os, key, hsplits, hmem, hsplit⟩
  · rw [hsplit]
    exact Transition.leadsTo?_of_patched hpatched
  · rw [hsplit]
    exact Transition.leadsTo?_of_split hsplits hmem

theorem Route.mentions (hst : Consistent services st) (h : Route st k hops m) :
    ReflTransGen (Mentions st) k.label m.label := by
  induction h with
  | nil => exact .refl
  | cons first _ ih => exact .head (first.attributeHop.mentions hst) ih

theorem Route.exists_target (hst : Consistent services st) (h : Route st k hops m)
    (nonempty : hops ≠ []) : ∃ t, TargetAt st m.label t := by
  induction h with
  | nil => exact absurd rfl nonempty
  | cons first rest ih =>
      cases rest with
      | nil => exact first.exists_target hst
      | cons => exact ih (by simp)

/-- Along a route, options that agree with the trimmed ones at its beginning on what is required at
its end are led to options that agree with the trimmed ones there. -/
theorem Route.agree (hst : Consistent services st) (h : Route st k hops m) {t : Target}
    (ht : TargetAt st m.label t) {c : ConfigurationKey} (hc : m.configuration = some c) :
    ∃ parent, k.configuration = some parent ∧
      ∀ u, parent.options.AgreeOn t.requiredFragments u →
        ∃ u', Transition.follow? u hops = some u' ∧
          c.options.AgreeOn t.requiredFragments u' := by
  induction h with
  | nil k => exact ⟨c, hc, fun u agree => ⟨u, rfl, agree⟩⟩
  | @cons k l m hop hops first rest ih =>
      obtain ⟨between, hbetween, hrest⟩ := ih ht hc
      obtain ⟨parent, r, o, hparent, hr, hleads, rfl⟩ := first.configuration hst hbetween
      refine ⟨parent, hparent, fun u agree => ?_⟩
      obtain ⟨u', hu', agree'⟩ := Transition.leadsTo?_agree hleads agree
      have htrimmed : (EdgeSource.trimmed (some r) o).options.AgreeOn t.requiredFragments u' := by
        cases r with
        | error e => exact agree'
        | ok fs =>
            have hkept : ∀ f ∈ t.requiredFragments, f ∈ fs :=
              AnalysisKey.required_subset_fragments hst (rest.mentions hst) hr ht
            exact agree'.trim hkept
      obtain ⟨u'', hu'', agree''⟩ := hrest u' htrimmed
      refine ⟨u'', ?_, agree''⟩
      rw [Transition.follow?, hu']
      exact hu''

/-- Let an engine begin with nothing and go through any history, and let a route of one hop or more
lead to a key with a configuration. Then the route begins in a configuration, and without any
trimming the transitions of its hops, with the split keys that they follow, lead from the options of
that to options. In every fragment that the rule of the last target requires, the configuration of
the key has the same options as these, and it has the same platform options and feature flags. -/
theorem route_keeps_required {start : AnalysisSession} (empty : start.store = {})
    {history : List (Engine.Call analysisSpace)}
    (proper : ∀ call ∈ history, call.Proper (AnalysisKey.computation services))
    {s : AnalysisSession} (hs : s.store = (start.after history).store)
    (route : Route s.store k hops m) (nonempty : hops ≠ []) {c : ConfigurationKey}
    (hc : m.configuration = some c) : ∃ t parent u, TargetAt s.store m.label t ∧
      k.configuration = some parent ∧ Transition.follow? parent.options hops = some u ∧
      (∀ f ∈ t.requiredFragments, ∀ option, c.options.option? f option = u.option? f option) ∧
      c.options.platform = u.platform ∧ c.options.featureFlags = u.featureFlags := by
  have hst := consistent_after empty proper hs
  obtain ⟨t, ht⟩ := route.exists_target hst nonempty
  obtain ⟨parent, hparent, hagree⟩ := route.agree hst ht hc
  obtain ⟨u, hu, agree⟩ := hagree parent.options (.refl _ _)
  exact ⟨t, parent, u, ht, hparent, hu, fun f hf option => agree.option? hf option,
    agree.platform, agree.featureFlags⟩

end TargetKey
end BuildAnalysis

/-! A library below a split below a patch. -/

namespace BuildAnalysis.RouteSample

open BuiltinRules.AliasSample (loading rule start)
open FragmentsSample (compute compute_interrupts gccLabel goLabel libraries nodup_deps)
open TargetKey (Hop Route)

def patching : Transition := .patch "cpp" "mode" "opt"

def splitting : Transition := .split "jvm" "mode" ["fast", "slow"]

def topLabel : Label := ⟨goLabel.package, ⟨"top", rfl, by decide⟩⟩

def midLabel : Label := ⟨goLabel.package, ⟨"mid", rfl, by decide⟩⟩

/-- A target with one dependency, which it reaches by a transition. -/
def node (label dependency : Label) (t : Transition) : Target :=
  { label := label
    kind := .rule (rule "plain"
      [.ofDecl { AttrDecl.dep "deps" with transition := .custom t }] nodup_deps)
    values := [("deps", .labelList [dependency])] }

def programs : Package where
  label := topLabel.package
  targets := [node topLabel midLabel patching, node midLabel gccLabel splitting]
  owned := by decide
  distinct := by decide

def slow : BuildOptions := ({} : BuildOptions).setOption "jvm" "mode" "slow"

def topKey : TargetKey := ⟨topLabel, some ⟨{}⟩, none⟩

def midKey : TargetKey := ⟨midLabel, some ⟨{}⟩, none⟩

def slowKey : TargetKey := ⟨gccLabel, some ⟨slow⟩, none⟩

def history : List (Engine.Call analysisSpace) :=
  [loading [libraries, programs], .compute compute {} true (.target topKey)]

def session : AnalysisSession := Engine.Session.after start history

theorem history_proper : ∀ call ∈ history, call.Proper compute :=
  List.forall_mem_cons.mpr ⟨BuiltinRules.AliasSample.loading_proper _,
    List.forall_mem_singleton.mpr compute_interrupts⟩

/-- Whether a key fans out to another by an attribute of this name. -/
def isHop (k : TargetKey) (attr : String) (hop : Transition × Option String) (l : TargetKey) :
    Bool :=
  (TargetKey.fan? session.store k).any fun x => x.edges.any fun e => x.dependencies.any fun d =>
    decide (e.kind = .attribute attr ∧ d.kind = e.kind ∧ d.label = e.label ∧
      (e.transition, d.splitKey) = hop ∧ d.key = l)

theorem hop_of_isHop {k l : TargetKey} {attr : String} {hop : Transition × Option String}
    (h : isHop k attr hop l = true) : Hop session.store k hop l := by
  simp only [isHop, Option.any_eq_true, List.any_eq_true, decide_eq_true_eq] at h
  obtain ⟨x, hx, e, he, d, hd, hattr, hedge⟩ := h
  exact ⟨x, TargetKey.fansOut_of_fan? hx, e, he, d, hd, ⟨attr, hattr⟩, hedge⟩

/-- The patch and one side of the split; trimming takes away what the patch sets. -/
theorem route_slow : Route session.store topKey [(patching, none), (splitting, some "slow")]
    slowKey := by
  have hfirst : isHop topKey "deps" (patching, none) midKey = true := by decide +kernel
  have hsecond : isHop midKey "deps" (splitting, some "slow") slowKey = true := by
    decide +kernel
  exact .cons (hop_of_isHop hfirst) (.cons (hop_of_isHop hsecond) (.nil _))

theorem route_keeps_required_slow : ∃ u,
    Transition.follow? {} [(patching, none), (splitting, some "slow")] = some u ∧ u ≠ slow ∧
    slow.option? "jvm" "mode" = u.option? "jvm" "mode" ∧ slow.platform = u.platform ∧
    slow.featureFlags = u.featureFlags := by
  obtain ⟨t, parent, u, ht, hparent, hu, hoptions, hplatform, hflags⟩ :=
    TargetKey.route_keeps_required rfl history_proper rfl route_slow (by simp) rfl
  obtain rfl := Option.some.inj hparent
  have hgcc : TargetAt session.store gccLabel FragmentsSample.gcc :=
    ⟨libraries, success?_eq_some (by decide +kernel), rfl⟩
  obtain rfl := hgcc.eq ht
  have hother : u ≠ slow := by
    rintro rfl
    revert hu
    decide
  exact ⟨u, hu, hother, hoptions "jvm" (by decide) "mode", hplatform, hflags⟩

end BuildAnalysis.RouteSample
