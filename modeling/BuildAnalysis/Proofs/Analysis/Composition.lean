import BuildAnalysis.Proofs.Analysis.Evaluation
import BuildAnalysis.Proofs.Analysis.Stages

/-!
# What evaluations are put together from

The stages of an evaluation, and so the evaluations of targets and of aspects, are put together from
requests, from log entries and from the registered implementations. They have every property of
demands that these have and that binding keeps.
-/
namespace BuildAnalysis

open Engine.Demand (Composed)

structure Implementations.Have (D : {α : Type} → Demand α → Prop) (i : Implementations) : Prop where
  rules : ∀ id r, i.rule? id = some r → ∀ c, Staged.Has D (r c)
  aspects : ∀ id a, i.aspect? id = some a → ∀ c, Staged.Has D (a c)

variable {D : {α : Type} → Demand α → Prop}

theorem Implementations.have_empty : Implementations.Have D {} where
  rules _ _ h := by cases h
  aspects _ _ h := by cases h

theorem Implementations.Have.addRule {i : Implementations} (h : i.Have D) {id : String}
    {r : RuleImplementation} (hr : ∀ c, Staged.Has D (r c)) : (i.addRule id r).Have D where
  rules id' r' hr' := by
    rw [Implementations.rule?, Implementations.addRule, Listing.find?_put] at hr'
    split at hr'
    next =>
      obtain rfl := Option.some.inj hr'
      exact hr
    next => exact h.rules id' r' hr'
  aspects := h.aspects

variable [Composed D]

namespace Batch

theorem settle_has {α : Type} (owner : Label) (configuration : Option ConfigurationKey)
    (rs : List (Resolved α)) : Staged.Has D (settle owner configuration rs) := by
  unfold settle
  refine .bind (.modify _) fun _ => .bind .get fun f => ?_
  split
  · exact .throw _
  · exact .pure _

theorem resolve_has (owner : Label) (configuration : Option ConfigurationKey)
    (deps : List Dependency) : Staged.Has D (resolve owner configuration deps) := by
  unfold resolve
  split
  · exact .pure _
  refine .bind (.request (Composed.values₂ _ _ _ _ _ _)) fun p => ?_
  obtain ⟨values, packages⟩ := p
  refine .bind (.modify _) fun _ => .bind (settle_has _ _ _) fun partials => ?_
  refine .bind ?_ fun p => settle_has _ _ _
  unfold requestMissing
  dsimp only
  split
  · exact .pure _
  · exact .request (Composed.values₂ _ _ _ _ _ _)

end Batch

theorem Conditions.ofTarget_has (t : Target) (c : Option Configuration) :
    Staged.Has D (Conditions.ofTarget t c) := by
  unfold Conditions.ofTarget
  split
  · refine .bind (.tryCatch (Batch.resolve_has _ _ _) fun _ => .throw _) fun values => ?_
    exact .bind (.ofExcept _) fun _ => .pure _
  · exact .pure _

namespace EdgeSource

variable (s : EdgeSource)

theorem loadTargets_has (es : List Edge) : Staged.Has D (s.loadTargets es) :=
  .bind (.request (Composed.values _ _ _)) fun _ => .bind (.modify _) fun _ => .pure _

theorem dependencies_has (nodes : List (Edge × Target)) :
    Staged.Has D (s.dependencies nodes) := by
  unfold dependencies
  split
  · exact .pure _
  · exact .bind (.request (Composed.values _ _ _)) fun _ => .bind (.ofExcept _) fun _ =>
      .bind (.request (Composed.values _ _ _)) fun _ => .pure _

theorem applyAspects_has (deps : List Dependency) (values : List AnalyzedTarget) :
    Staged.Has D (s.applyAspects deps values) := by
  unfold applyAspects
  dsimp only
  split
  · exact .pure _
  refine .bind (.request (Composed.values _ _ _)) fun results => .bind (.modify _) fun _ =>
    .bind (.ofExcept _) fun merged => ?_
  split
  · exact .throw _
  · exact .pure _

theorem fanOut_has (deps : List Dependency) : Staged.Has D (s.fanOut deps) :=
  .bind (Batch.resolve_has _ _ _) fun _ => .bind (s.applyAspects_has _ _) fun _ => .pure _

theorem bundle_has : Staged.Has D s.bundle :=
  .bind (.ofExcept _) fun _ => .bind (s.loadTargets_has _) fun _ =>
    .bind (s.dependencies_has _) fun deps => s.fanOut_has deps

end EdgeSource

theorem ToolchainContexts.resolve_has (t : Target) (r : Rule) (c : Configuration)
    (platform : Option Label) : Staged.Has D (ToolchainContexts.resolve t r c platform) := by
  unfold ToolchainContexts.resolve
  refine .bind (.ofExcept _) fun groups => ?_
  split
  · exact .pure _
  · exact .bind (.request (Composed.values _ _ _)) fun _ => .bind (.ofExcept _) fun _ => .pure _

namespace TargetKey

variable (k : TargetKey)

theorem load_has : Staged.Has D k.load := by
  unfold load
  refine .bind (.request (Composed.values₂ _ _ _ _ _ _)) fun p => ?_
  obtain ⟨packages, configurations⟩ := p
  refine .bind (.ofExcept _) fun loaded => .bind (.modify _) fun _ => ?_
  split
  · exact .bind (.modify _) fun _ => .pure _
  · exact .pure _

theorem toolchains_has (loaded : Loaded) : Staged.Has D (k.toolchains loaded) := by
  unfold toolchains
  split
  · exact .bind (ToolchainContexts.resolve_has _ _ _ _) fun _ => .bind (.modify _) fun _ =>
      .pure _
  · exact .pure _

theorem runImplementation_has {i : RuleImplementation} {c : RuleContext}
    (h : Staged.Has D (i c)) : Staged.Has D (k.runImplementation i c) := by
  unfold runImplementation
  refine .bind (.request (h [])) fun p => ?_
  obtain ⟨result, events⟩ := p
  dsimp only
  split
  · refine .bind (.modify _) fun _ => ?_
    split
    · exact .pure _
    · exact .throw _
  · split
    · exact .bind (.modify _) fun _ => .throw _
    · exact .bind (.modify _) fun _ => .throw _

theorem build_has {services : Services} (h : services.implementations.Have D)
    (loaded : Loaded) (conditions : Conditions) (contexts : Option ToolchainContexts)
    (deps : DependencyBundle) :
    Staged.Has D (k.build services loaded conditions contexts deps) := by
  unfold build
  split
  · exact .pure _
  · split
    · exact .throw _
    next i hi =>
      exact .bind (.ofExcept _) fun _ =>
        .bind (k.runImplementation_has (h.rules _ _ hi _)) fun _ => .ofExcept _

theorem consult_has (loaded : Loaded) : Staged.Has D (k.consult loaded) := by
  unfold consult
  refine .bind (Conditions.ofTarget_has _ _) fun conditions => .bind .get fun f => ?_
  dsimp only
  split
  · exact .bind .get fun _ => .bind (.throw _) fun _ => .pure _
  · exact .pure _

theorem prepare_has : Staged.Has D k.prepare := by
  unfold prepare
  refine .bind k.load_has fun loaded => ?_
  split
  · exact .bind (.request (Composed.log _)) fun _ => .pure _
  · exact .bind (k.toolchains_has loaded) fun _ => .bind (k.consult_has loaded) fun _ =>
      .bind (.ofExcept _) fun _ => .bind (EdgeSource.loadTargets_has _ _) fun _ =>
        .bind (EdgeSource.dependencies_has _ _) fun _ => .pure _

theorem fanOut_has (x : Fan) : Staged.Has D (k.fanOut x) := by
  unfold fanOut
  refine .bind (EdgeSource.fanOut_has _ _) fun deps => .bind .get fun f => ?_
  dsimp only
  split
  · exact .bind .get fun _ => .bind (.throw _) fun _ => .pure _
  · exact .pure _

theorem conclude_has {services : Services} (h : services.implementations.Have D)
    (loaded : Loaded) (conditions : Conditions) (contexts : Option ToolchainContexts)
    (deps : DependencyBundle) :
    Staged.Has D (k.conclude services loaded conditions contexts deps) :=
  .bind (k.build_has h loaded conditions contexts deps) fun _ => .bind .get fun _ => .pure _

theorem evaluate_has {services : Services} (h : services.implementations.Have D) :
    Staged.Has D (k.evaluate services) := by
  rw [evaluate_eq_fanOut]
  refine .bind k.prepare_has fun fan => ?_
  cases fan with
  | none => exact .pure _
  | some x => exact .bind (k.fanOut_has x) fun deps => k.conclude_has h _ _ _ deps

end TargetKey

namespace AspectKey

variable (k : AspectKey)

theorem loadBase_has : Staged.Has D k.loadBase := by
  unfold loadBase
  refine .bind (.request (Composed.value _)) fun value => ?_
  split
  · exact .throw _
  · refine .bind (.request (Composed.values₂ _ _ _ _ _ _)) fun p => ?_
    obtain ⟨packages, configurations⟩ := p
    exact .bind (.ofExcept _) fun _ => .pure _

theorem gather_has (base : AnalyzedTarget) : Staged.Has D (k.gather base) := by
  unfold gather
  refine .bind (EdgeSource.bundle_has _) fun deps => .bind .get fun f => ?_
  dsimp only
  split
  · exact .bind .get fun _ => .bind (.throw _) fun _ => .pure _
  · exact .pure _

theorem runImplementation_has {i : AspectImplementation} {c : AspectContext}
    (h : Staged.Has D (i c)) : Staged.Has D (k.runImplementation i c) := by
  unfold runImplementation
  refine .bind (.request (h [])) fun p => ?_
  obtain ⟨result, events⟩ := p
  refine .bind (.modify _) fun _ => ?_
  cases result with
  | ok providers =>
      dsimp only
      split
      · exact .pure _
      · exact .throw _
  | error e => exact .throw _

theorem conclude_has {services : Services} (h : services.implementations.Have D)
    (base : AnalyzedTarget) (deps : DependencyBundle) :
    Staged.Has D (k.conclude services base deps) := by
  unfold conclude
  split
  · exact .throw _
  next i hi => exact .bind (k.runImplementation_has (h.aspects _ _ hi _)) fun _ => .pure _

theorem evaluate_has {services : Services} (h : services.implementations.Have D) :
    Staged.Has D (k.evaluate services) := by
  rw [evaluate_eq]
  exact .bind k.loadBase_has fun base => .bind (k.gather_has base) fun deps =>
    k.conclude_has h base deps

end AspectKey

namespace AnalysisKey

theorem computeFragments_has (l : Label) : D (computeFragments l) := by
  unfold computeFragments
  refine Composed.bind (Composed.value _) fun loaded => ?_
  split
  · exact Composed.pure _
  · exact Composed.bind (Composed.values _ _ _) fun _ => Composed.pure _

theorem computeToolchains_has (k : ToolchainKey) : D (computeToolchains k) :=
  Composed.bind (Composed.value _) fun _ =>
    Composed.bind (Composed.forM fun _ _ => Composed.log _) fun _ => Composed.pure _

end AnalysisKey
end BuildAnalysis
