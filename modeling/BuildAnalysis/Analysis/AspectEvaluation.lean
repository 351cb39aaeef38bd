import BuildAnalysis.Analysis.TargetEvaluation

/-!
# Evaluating an aspect

An aspect is evaluated on the value of its base target. Its own attributes have dependencies, and
its implementation ends with the providers that the base target gets.
-/
namespace BuildAnalysis.AspectKey

def failedMessage (k : AspectKey) (label : Label) : String :=
  s!"Analysis of aspect '{k.aspect.id}' on {label} failed"

/-- The base target with its value. An alias leads to the target that it stands for. -/
def loadBase (k : AspectKey) : Evaluation AnalyzedTarget := do
  match ← Evaluation.request (Engine.Demand.value (S := analysisSpace) (.target k.base)) with
  | .error e =>
    Evaluation.abort (.aspect (e.toTargetFailure k.base.label k.base.configuration))
  | .ok value =>
    let actual : TargetKey := { label := value.label, configuration := value.configuration }
    let (packages, configurations) ← Evaluation.request
      (AnalysisKey.requestPackagesAndConfigurations [value.label.package]
        value.configuration.toList)
    let loaded ← Evaluation.ofExcept (actual.loadedFrom packages configurations)
    return ⟨value, loaded.target, loaded.configuration⟩

def causesOf (base : AnalyzedTarget) (events : List Event) : Causes :=
  (Event.errors events).foldl
    (fun cs e => cs.add ⟨base.label, base.value.configuration, .analysis, e.message⟩) ∅

/-- Runs an implementation; its events are kept, and any error among them makes it fail. -/
def runImplementation (k : AspectKey) (implementation : AspectImplementation)
    (c : AspectContext) : Evaluation Providers := do
  let (result, reported) ← Evaluation.request (StateT.run (ExceptT.run (implementation c)) [])
  let events :=
    match result with
    | .ok _ => reported
    | .error e => reported ++ [.error c.base.label e.fullText]
  Evaluation.note fun f => { f with events := f.events ++ events }
  let failure := TargetFailure.ofCauses c.base.label c.base.value.configuration
    (k.failedMessage c.base.label) (causesOf c.base events)
  match result with
  | .ok providers =>
    if (Event.errors events).isEmpty then return providers
    else Evaluation.abort (.creation failure)
  | .error _ => Evaluation.abort (.creation failure)

def evaluate (k : AspectKey) (services : Services) : Evaluation AspectValue := do
  let base ← k.loadBase
  let deps ← EdgeSource.bundle
    { target := base.target, configuration := base.configuration, aspect := some k.aspect }
  if !(← Evaluation.findings).causes.isEmpty then
    Evaluation.abort (.collected (.ofCauses base.label base.value.configuration
      (k.failedMessage base.label) (← Evaluation.findings).causes))
  match services.implementations.aspect? k.aspect.id with
  | none =>
    Evaluation.abort (.creation (.ofTarget base.label base.value.configuration .internalError
      s!"No implementation registered for aspect `{k.aspect.id}`"))
  | some implementation =>
    let providers ← k.runImplementation implementation
      { aspect := k.aspect, base := base, dependencies := deps }
    return ⟨k.aspect.id, k.base, providers⟩

/-- Reports a failure unless that has been done, and completes it. -/
def reportFailure (k : AspectKey) (f : Findings) : Abort → Findings × TargetFailure
  | .dependency e reported =>
    (if reported then f else f.report (.error k.base.label e.message), e.markReported)
  | .creation e =>
    (if e.message.isEmpty then f else f.report (.error k.base.label e.message), e.markReported)
  | .aspect e => (f, e.markReported)
  | .toolchains e =>
    (f.report (.error k.base.label e.message),
      (k.base.failure e.bestTag e.message).markReported)
  | .collected e => (f, e)

end BuildAnalysis.AspectKey
