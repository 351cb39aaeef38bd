import BuildAnalysis.Analysis.Computation
import BuildAnalysis.Proofs.Engine.Demand

/-!
# The stages of an evaluation

The evaluation of a target goes through stages: it is loaded, its toolchains are resolved, its
conditions are consulted, its dependencies are gathered, and its rule is built. An aspect has fewer
of them. Each evaluation is its stages, one after the other. Gathering loads the targets of all
edges before it fans out to the dependencies, so an evaluation is also what prepares for that, the
fan-out, and what is built on it.
-/
namespace BuildAnalysis

namespace EdgeSource

def fanOut (s : EdgeSource) (deps : List Dependency) : Evaluation DependencyBundle := do
  let values ← Batch.resolve s.target.label s.configurationKey deps
  let values ← s.applyAspects deps values
  return ⟨deps.zip values⟩

theorem bundle_eq (s : EdgeSource) : s.bundle = (do
    let es ← Evaluation.ofExcept s.edges
    let nodes ← s.loadTargets es
    let deps ← s.dependencies nodes
    s.fanOut deps) := rfl

end EdgeSource

namespace TargetKey

def consult (k : TargetKey) (loaded : Loaded) : Evaluation Conditions := do
  let conditions ← Conditions.ofTarget loaded.target loaded.configuration
  if !(← Evaluation.findings).causes.isEmpty && !conditions.isEmpty then
    Evaluation.abort (.creation (.ofCauses k.label k.configuration
      "Cannot compute config conditions" (← Evaluation.findings).causes))
  return conditions

def edgeSource (loaded : Loaded) (conditions : Conditions) (contexts : Option ToolchainContexts) :
    EdgeSource :=
  { target := loaded.target
    configuration := loaded.configuration
    conditions := conditions
    toolchains := contexts }

/-- The dependencies of the target, unless causes were found. -/
def gather (k : TargetKey) (loaded : Loaded) (conditions : Conditions)
    (contexts : Option ToolchainContexts) : Evaluation DependencyBundle := do
  let deps ← (edgeSource loaded conditions contexts).bundle
  if !(← Evaluation.findings).causes.isEmpty then
    Evaluation.abort (.collected (.ofCauses k.label k.configuration "Analysis failed"
      (← Evaluation.findings).causes))
  return deps

/-- The value of the target once its dependencies have values. -/
def conclude (k : TargetKey) (services : Services) (loaded : Loaded) (conditions : Conditions)
    (contexts : Option ToolchainContexts) (deps : DependencyBundle) : Evaluation TargetValue := do
  let value ← k.build services loaded conditions contexts deps
  let found ← Evaluation.findings
  return { value with
    dependencies := deps.keys, toolchains := found.toolchains, packages := found.packages }

theorem evaluate_eq (k : TargetKey) (services : Services) : k.evaluate services = (do
    let loaded ← k.load
    if loaded.target.isConfigurable != loaded.configuration.isSome then
      Evaluation.request (Engine.Demand.lift (.log ⟨.warn, k.misfitMessage loaded⟩ (.done ())))
      return .empty k.label k.configuration
    else
      let contexts ← k.toolchains loaded
      let conditions ← k.consult loaded
      let deps ← k.gather loaded conditions contexts
      k.conclude services loaded conditions contexts deps) := by
  unfold evaluate consult gather conclude
  refine bind_congr fun loaded => ?_
  split
  · rfl
  refine bind_congr fun contexts => ?_
  simp only [bind_assoc]
  refine bind_congr fun conditions => bind_congr fun f => ?_
  split
  · rfl
  simp only [pure_bind]
  refine bind_congr fun deps => bind_congr fun f => ?_
  split <;> rfl

structure Fan where
  loaded : Loaded
  conditions : Conditions
  contexts : Option ToolchainContexts
  edges : List Edge
  dependencies : List Dependency

def Fan.source (x : Fan) : EdgeSource := edgeSource x.loaded x.conditions x.contexts

/-- Everything before the dependencies are evaluated. Nothing is fanned out to if the configuration
does not fit the target. -/
def prepare (k : TargetKey) : Evaluation (Option Fan) := do
  let loaded ← k.load
  if loaded.target.isConfigurable != loaded.configuration.isSome then
    Evaluation.request (Engine.Demand.lift (.log ⟨.warn, k.misfitMessage loaded⟩ (.done ())))
    return none
  else
    let contexts ← k.toolchains loaded
    let conditions ← k.consult loaded
    let source := edgeSource loaded conditions contexts
    let es ← Evaluation.ofExcept source.edges
    let nodes ← source.loadTargets es
    let deps ← source.dependencies nodes
    return some ⟨loaded, conditions, contexts, es, deps⟩

def fanOut (k : TargetKey) (x : Fan) : Evaluation DependencyBundle := do
  let deps ← x.source.fanOut x.dependencies
  if !(← Evaluation.findings).causes.isEmpty then
    Evaluation.abort (.collected (.ofCauses k.label k.configuration "Analysis failed"
      (← Evaluation.findings).causes))
  return deps

theorem evaluate_eq_fanOut (k : TargetKey) (services : Services) : k.evaluate services = (do
    match ← k.prepare with
    | none => return .empty k.label k.configuration
    | some x =>
      let deps ← k.fanOut x
      k.conclude services x.loaded x.conditions x.contexts deps) := by
  rw [evaluate_eq]
  unfold prepare gather fanOut
  simp only [bind_assoc]
  refine bind_congr fun loaded => ?_
  split
  · simp only [bind_assoc, pure_bind]
  · simp only [bind_assoc, pure_bind, EdgeSource.bundle_eq, Fan.source]

end TargetKey

namespace AspectKey

def edgeSource (k : AspectKey) (base : AnalyzedTarget) : EdgeSource :=
  { target := base.target, configuration := base.configuration, aspect := some k.aspect }

def gather (k : AspectKey) (base : AnalyzedTarget) : Evaluation DependencyBundle := do
  let deps ← (k.edgeSource base).bundle
  if !(← Evaluation.findings).causes.isEmpty then
    Evaluation.abort (.collected (.ofCauses base.label base.value.configuration
      (k.failedMessage base.label) (← Evaluation.findings).causes))
  return deps

/-- The value of the aspect once its dependencies have values. -/
def conclude (k : AspectKey) (services : Services) (base : AnalyzedTarget)
    (deps : DependencyBundle) : Evaluation AspectValue := do
  match services.implementations.aspect? k.aspect.id with
  | none =>
    Evaluation.abort (.creation (.ofTarget base.label base.value.configuration .internalError
      s!"No implementation registered for aspect `{k.aspect.id}`"))
  | some implementation =>
    let providers ← k.runImplementation implementation
      { aspect := k.aspect, base := base, dependencies := deps }
    return ⟨k.aspect.id, k.base, providers⟩

theorem evaluate_eq (k : AspectKey) (services : Services) : k.evaluate services = (do
    let base ← k.loadBase
    let deps ← k.gather base
    k.conclude services base deps) := by
  unfold evaluate gather conclude
  refine bind_congr fun base => ?_
  simp only [bind_assoc]
  refine bind_congr fun deps => bind_congr fun f => ?_
  split <;> rfl

end AspectKey
end BuildAnalysis
