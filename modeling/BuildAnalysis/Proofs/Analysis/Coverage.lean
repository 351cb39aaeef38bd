import BuildAnalysis.Proofs.Analysis.Fragments
import BuildAnalysis.Proofs.Attribute.Collector

/-!
# Labels that are followed have been collected

Whatever an attribute comes to in a configuration, its labels are among those that are collected from
all branches. So a target follows an attribute to no label that is not among its unconfigured
dependencies, and what is found out about these holds of all that it gets to by attributes.
-/
namespace BuildAnalysis

theorem EdgeSource.mem_unconfiguredDeps {s : EdgeSource} (target : s.aspect = none)
    {es : List Edge} (h : s.edges = .ok es) {e : Edge} (he : e ∈ es) {attr : String}
    (hkind : e.kind = .attribute attr) : e.label ∈ s.target.unconfiguredDeps := by
  rcases mem_edges target h he with ⟨a, ha⟩ | ⟨group, hgroup⟩
  · exact ha.mem_unconfiguredDeps
  · cases hkind.symm.trans hgroup

/-- Collecting from an expression extends a listing at its end, without repetition, by exactly the
labels that stand somewhere in the expression, or by the conditions of all its choices. The labels
that the expression comes to in any context are among those collected. So the edges of a target's
attributes lead to unconfigured dependencies of the target, whatever the configuration, its
conditions and its toolchains; and in any engine, whatever has been asked of it, a target gets to no
other labels by its attributes. -/
theorem configured_labels_collected :
    (∀ (e : AttrExpr) (known : List Label),
      Listing.ExtendedBy known (fun l => .label l ∈ e.parts) (e.allLabels known) ∧
      Listing.ExtendedBy known (fun l => ∃ x ∈ e.parts, x.Asks l) (e.selectKeys known) ∧
      ∀ (ctx : ConditionContext) (v : AttrValue), e.configure ctx = .ok v →
        ∀ l ∈ v.labels, l ∈ e.allLabels known) ∧
    (∀ s : EdgeSource, s.aspect = none → ∀ es, s.edges = .ok es →
      ∀ e ∈ es, ∀ attr, e.kind = .attribute attr → e.label ∈ s.target.unconfiguredDeps) ∧
    ∀ (services : Option Services) (start : AnalysisSession)
      (history : List (Engine.Call analysisSpace)), start.store = {} →
      (∀ call ∈ history, call.Proper (AnalysisKey.computation services)) →
      ∀ k l, TargetKey.AttributeHop (Engine.Session.after start history).store k l →
        Mentions (Engine.Session.after start history).store k.label l.label := by
  refine ⟨fun e known => ⟨e.extendedBy_allLabels known, e.extendedBy_selectKeys known, ?_⟩, ?_, ?_⟩
  · intro ctx v hv l hl
    exact Listing.mem_addAll.mpr (.inr (e.labels_configure hv l hl))
  · intro s target es hes e he attr hkind
    exact EdgeSource.mem_unconfiguredDeps target hes he hkind
  · intro services start history empty proper k l hhop
    exact hhop.mentions (consistent_after empty proper rfl)

end BuildAnalysis

namespace BuildAnalysis.CoverageSample

open BuiltinRules.AliasSample (aliasLabel binLabel optLabel optSettings optimized)
open FragmentsSample (gccLabel history history_proper session userKey userLabel gccKey
  attributeHop_gcc)

def sources : AttrExpr :=
  .concat [.labelList [gccLabel],
    .select [(aliasLabel, .list [.label binLabel, .label gccLabel])]
      (some (.labelList [optLabel]))]

def context : ConditionContext := .ofSettings optimized [(aliasLabel, optSettings)]

theorem configured_labels_collected_user :
    sources.configure context =
        .ok (.list [.label gccLabel, .label binLabel, .label gccLabel]) ∧
      binLabel ∈ sources.allLabels [aliasLabel] ∧
      [aliasLabel] <+: sources.allLabels [aliasLabel] ∧
      (sources.allLabels [aliasLabel]).Nodup ∧
      TargetKey.AttributeHop session.store userKey gccKey ∧
      Mentions session.store userLabel gccLabel := by
  have hvalue : sources.configure context =
      .ok (.list [.label gccLabel, .label binLabel, .label gccLabel]) := by decide +kernel
  obtain ⟨hcollected, -, hfollowed⟩ := configured_labels_collected
  obtain ⟨hextended, -, hlabels⟩ := hcollected sources [aliasLabel]
  refine ⟨hvalue, hlabels context _ hvalue binLabel ?_, hextended.order,
    hextended.nodup (List.nodup_singleton _), attributeHop_gcc, ?_⟩
  · decide +kernel
  · exact hfollowed _ _ history rfl history_proper userKey gccKey attributeHop_gcc

end BuildAnalysis.CoverageSample
