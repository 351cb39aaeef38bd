import BuildAnalysis.Analysis.BuiltinRules
import BuildAnalysis.Environment.AnalysisSettings

/-!
# Evaluating a configured target

The evaluation of a configured target loads it, resolves its toolchains, its conditions and its
dependencies, and runs the implementation of its rule. It ends with a value or with a failure that
carries its causes; what has not been reported on the way is reported at the end.
-/
namespace BuildAnalysis

/-- What analysis works with besides requested values. -/
structure Services where
  settings : AnalysisSettings := {}
  implementations : Implementations := {}

namespace TargetKey

def failure (k : TargetKey) (tag : Tag) (message : String) : TargetFailure :=
  .ofTarget k.label k.configuration tag message

structure Loaded where
  package : Package
  target : Target
  configuration : Option Configuration

def loadedFrom (k : TargetKey) (packages : List (PackagePath × Except Failure Package))
    (configurations : List (ConfigurationKey × Configuration)) : Except Abort Loaded :=
  match Package.among packages k.label with
  | .error e => .error (.creation (k.failure e.bestTag e.message))
  | .ok p =>
    match p.target k.label.name with
    | .error e => .error (.creation (k.failure .targetNotFound e.message))
    | .ok t => .ok ⟨p, t, configurations.head?.map Prod.snd⟩

def load (k : TargetKey) : Evaluation Loaded := do
  let (packages, configurations) ← Evaluation.request
    (AnalysisKey.requestPackagesAndConfigurations [k.label.package] k.configuration.toList)
  let loaded ← Evaluation.ofExcept (k.loadedFrom packages configurations)
  Evaluation.note fun f => f.addPackage loaded.package.label
  match loaded.package.errorMessage with
  | some message =>
    Evaluation.note fun f => f.addCause ⟨k.label, k.configuration, .packageLoading,
      s!"package {loaded.package.label} contains errors: {message}"⟩
  | none => pure ()
  return loaded

def misfitMessage (k : TargetKey) (loaded : Loaded) : String :=
  let how := if loaded.configuration.isSome then "with" else "without"
  s!"Target {k.label} requested {how} a configuration, producing an empty value"

/-- The toolchains of the target, if it is a target of a rule in a configuration. -/
def toolchains (k : TargetKey) (loaded : Loaded) : Evaluation (Option ToolchainContexts) := do
  match loaded.configuration, loaded.target.rule? with
  | some c, some r =>
    let contexts ← ToolchainContexts.resolve loaded.target r c k.executionPlatform
    Evaluation.note fun f => { f with toolchains := contexts.labels }
    return some contexts
  | _, _ => return none

/-- How an implementation fails: some failures end the evaluation at once, others are reported like
its own errors. -/
def buildFailure (k : TargetKey) (e : Failure) : TargetFailure ⊕ Event :=
  if e.bestTag = .actionConflict ∨ e.bestTag = .invalidExecGroup then
    .inl (k.failure e.bestTag e.message)
  else .inr (.error k.label e.message)

def causesOf (k : TargetKey) (events : List Event) : Causes :=
  (Event.errors events).foldl
    (fun cs e => cs.add ⟨k.label, k.configuration, .analysis, e.message⟩) ∅

def valueOf (k : TargetKey) (deps : DependencyBundle) : RuleOutput → Except Abort TargetValue
  | .providers p => .ok (.rule k.label k.configuration p)
  | .standsFor actual =>
    let isAttribute : DependencyKind → Bool
      | .attribute _ => true
      | _ => false
    match deps.entries.find? fun e => e.1.label == actual && isAttribute e.1.kind with
    | some e => .ok (.ofAlias k.label e.2.value)
    | none =>
      .error (.creation (k.failure .analysis
        s!"`{k.label}` aliases `{actual}`, which is not one of its dependencies"))

/-- Runs an implementation; its events are kept, and any error among them makes it fail. -/
def runImplementation (k : TargetKey) (implementation : RuleImplementation) (c : RuleContext) :
    Evaluation RuleOutput := do
  let (result, events) ← Evaluation.request (StateT.run (ExceptT.run (implementation c)) [])
  let keep (es : List Event) : Evaluation Unit :=
    Evaluation.note fun f => { f with events := f.events ++ es }
  let failed (es : List Event) : Abort :=
    .creation (.ofCauses k.label k.configuration s!"Analysis of target '{k.label}' failed"
      (k.causesOf es))
  match result with
  | .ok output =>
    keep events
    if (Event.errors events).isEmpty then return output
    else Evaluation.abort (failed events)
  | .error e =>
    match k.buildFailure e with
    | .inl f =>
      keep events
      Evaluation.abort (.creation f)
    | .inr event =>
      keep (events ++ [event])
      Evaluation.abort (failed (events ++ [event]))

def build (k : TargetKey) (services : Services) (loaded : Loaded) (conditions : Conditions)
    (contexts : Option ToolchainContexts) (deps : DependencyBundle) :
    Evaluation TargetValue := do
  match loaded.target.rule? with
  | none => return .sourceFile k.label
  | some rule =>
    match services.implementations.rule? rule.id with
    | none =>
      Evaluation.abort (.creation (k.failure .internalError
        s!"No implementation registered for rule `{rule.id}`"))
    | some implementation =>
      let toolchains ← Evaluation.ofExcept
        (match contexts.bind ToolchainContexts.contexts with
        | none => .ok none
        | some cs =>
          match LoadedToolchains.ofContexts deps cs with
          | .ok ts => .ok (some ts)
          | .error e => .error (.creation (k.failure e.bestTag e.message)))
      let output ← k.runImplementation implementation
        { target := loaded.target
          configuration := loaded.configuration
          conditions := conditions
          dependencies := deps
          toolchains := toolchains
          groups := (contexts.map ToolchainContexts.groups).getD ToolchainContexts.noGroups }
      Evaluation.ofExcept (k.valueOf deps output)

def evaluate (k : TargetKey) (services : Services) : Evaluation TargetValue := do
  let loaded ← k.load
  if loaded.target.isConfigurable != loaded.configuration.isSome then
    Evaluation.request (Engine.Demand.lift (.log ⟨.warn, k.misfitMessage loaded⟩ (.done ())))
    return .empty k.label k.configuration
  let contexts ← k.toolchains loaded
  let conditions ← Conditions.ofTarget loaded.target loaded.configuration
  if !(← Evaluation.findings).causes.isEmpty && !conditions.isEmpty then
    Evaluation.abort (.creation (.ofCauses k.label k.configuration
      "Cannot compute config conditions" (← Evaluation.findings).causes))
  let deps ← EdgeSource.bundle
    { target := loaded.target
      configuration := loaded.configuration
      conditions := conditions
      toolchains := contexts }
  if !(← Evaluation.findings).causes.isEmpty then
    Evaluation.abort (.collected (.ofCauses k.label k.configuration "Analysis failed"
      (← Evaluation.findings).causes))
  let value ← k.build services loaded conditions contexts deps
  let found ← Evaluation.findings
  return { value with
    dependencies := deps.keys, toolchains := found.toolchains, packages := found.packages }

/-- Reports a failure unless that has been done, and completes it. -/
def reportFailure (k : TargetKey) (f : Findings) : Abort → Findings × TargetFailure
  | .dependency e reported =>
    let f := if reported then f else f.report (.error k.label e.message)
    if e.causes.labels.any fun l => decide (l ∈ f.toolchains) then
      let message := s!"errors encountered resolving toolchains for {k.label}"
      (f.report (.error k.label message), (e.withMessage message).markReported)
    else (f, e.markReported)
  | .creation e =>
    (if e.message.isEmpty then f else f.report (.error k.label e.message), e.markReported)
  | .aspect e => (f, e.markReported)
  | .toolchains e =>
    let message := s!"While resolving toolchains for target {k.label}: {e.message}"
    (f.report (.error k.label message), (k.failure e.bestTag message).markReported)
  | .collected e => (f, e)

end TargetKey
end BuildAnalysis
