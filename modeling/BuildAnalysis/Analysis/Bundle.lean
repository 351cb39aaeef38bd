import BuildAnalysis.Analysis.Edges

/-!
# The dependencies of a target with their values

Once the dependencies of a target have values, the aspects of their edges are applied and add their
providers to the values. A provider that both sides have is a failure of the dependency; failures of
aspects are collected, and the first is raised.
-/
namespace BuildAnalysis

namespace AspectKey

/-- The aspects to apply to the value of a dependency. Only targets of rules have any, and they are
applied to the target that an alias stands for. -/
def ofDependency (d : Dependency) (t : AnalyzedTarget) : List AspectKey :=
  if t.target.rule?.isNone || t.value.isEmpty then []
  else d.aspects.map fun a =>
    ⟨a, { label := t.label, configuration := t.value.configuration }⟩

end AspectKey

namespace EdgeSource

def repeatedProvider (s : EdgeSource) (k : AspectKey) (e : RepeatedProvider) : Abort :=
  .dependency (s.failure .duplicateProvider
    s!"Aspect `{k.aspect.id}` applied to `{k.base.label}`: {e.message}") false

/-- Adds the providers of the aspects of one dependency, as far as they succeed. -/
def addProviders (s : EdgeSource) :
    AnalyzedTarget → List (AspectKey × Except Failure AspectValue) → Except Abort AnalyzedTarget
  | t, [] => .ok t
  | t, (_, .error _) :: rest => s.addProviders t rest
  | t, (k, .ok v) :: rest =>
    match t.withProviders v.providers with
    | .error e => .error (s.repeatedProvider k e)
    | .ok t => s.addProviders t rest

def aspectFailures (rs : List (AspectKey × Except Failure AspectValue)) : List TargetFailure :=
  rs.filterMap fun r =>
    match r.2 with
    | .ok _ => none
    | .error e => some (e.toTargetFailure r.1.base.label r.1.base.configuration)

/-- Deals the results of a batch out to the dependencies that asked for them. -/
def dealOut {α : Type} : List (AnalyzedTarget × List AspectKey) → List α →
    List (AnalyzedTarget × List (AspectKey × α))
  | [], _ => []
  | (t, ks) :: rest, rs => (t, ks.zip rs) :: dealOut rest (rs.drop ks.length)

def applyAspects (s : EdgeSource) (deps : List Dependency) (values : List AnalyzedTarget) :
    Evaluation (List AnalyzedTarget) := do
  let wanted := (deps.zip values).map fun e => (e.2, AspectKey.ofDependency e.1 e.2)
  let keys := wanted.flatMap Prod.snd
  if keys.isEmpty then return values
  let results ← Evaluation.request (AnalysisKey.requestAspects keys)
  let failures := aspectFailures (keys.zip results)
  Evaluation.note fun f =>
    { f with causes := failures.foldl (fun cs e => cs.addAll e.causes) f.causes }
  let merged ← Evaluation.ofExcept
    (sequence ((dealOut wanted results).map fun e => s.addProviders e.1 e.2))
  match failures with
  | f :: _ => Evaluation.abort (.aspect f)
  | [] => return merged

/-- The dependencies of a target, or of an aspect applied to it, with their values. Targets that
cannot be loaded are causes; they do not fail here. -/
def bundle (s : EdgeSource) : Evaluation DependencyBundle := do
  let es ← Evaluation.ofExcept s.edges
  let nodes ← s.loadTargets es
  let deps ← s.dependencies nodes
  let values ← Batch.resolve s.target.label s.configurationKey deps
  let values ← s.applyAspects deps values
  return ⟨deps.zip values⟩

end EdgeSource
end BuildAnalysis
