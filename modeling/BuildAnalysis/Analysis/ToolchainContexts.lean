import BuildAnalysis.Analysis.Dependency

/-!
# Toolchains of a target

Toolchains are resolved for every execution group of a target. Resolution sees the configuration
without feature flags, so targets that differ only in flags share it. A platform that is given from
outside applies to the default group only.
-/
namespace BuildAnalysis

/-- The execution groups of a target, and the outcome of resolution for each unless the rule does
without. -/
structure ToolchainContexts where
  groups : ExecGroups
  contexts : Option (List (String × ToolchainContext))

namespace ToolchainContexts

def noGroups : ExecGroups := .ofDeclared {} []

def get? (t : ToolchainContexts) (group : String) : Option ToolchainContext :=
  t.contexts.bind (Listing.find? group)

def labels (t : ToolchainContexts) : SortedSet Label :=
  .ofList ((t.contexts.getD []).flatMap fun e => e.2.labels)

/-- The execution groups of a target: the default group has the constraints of the rule, of the
target and of the configuration. -/
def groupsOf (target : Target) (rule : Rule) (configuration : Configuration) :
    Except TargetError ExecGroups :=
  match target.constraints with
  | .error e => .error e
  | .ok own =>
    let constraints := rule.constraints.insertAll
      (own ++ configuration.executionConstraintsFor target.label)
    .ok (.ofDeclared { toolchainTypes := rule.toolchainTypes, constraints := constraints }
      rule.execGroups)

def keyOf (target : Target) (configuration : Configuration) (platform : Option Label)
    (group : String × ExecGroup) : ToolchainKey :=
  { configuration := ⟨configuration.options.clearFlags⟩
    types := group.2.toolchainTypes
    constraints := group.2.constraints
    platform := if group.1 = ExecGroup.defaultName then platform else none
    traced := configuration.tracesToolchainsOf target.label }

/-- The outcomes by group, or the first failure. -/
def collect : List (String × Except Failure ToolchainContext) →
    Except Abort (List (String × ToolchainContext))
  | [] => .ok []
  | (name, r) :: rest =>
    match r with
    | .error e => .error (.toolchains e)
    | .ok c =>
      match collect rest with
      | .error a => .error a
      | .ok cs => .ok ((name, c) :: cs)

def resolve (target : Target) (rule : Rule) (configuration : Configuration)
    (platform : Option Label) : Evaluation ToolchainContexts := do
  let groups ← Evaluation.ofExcept ((groupsOf target rule configuration).mapError fun e =>
    let f := e.toFailure
    .creation (.ofTarget target.label (some configuration.key) f.bestTag f.message))
  if !rule.usesToolchainResolution then return ⟨groups, none⟩
  let results ← Evaluation.request
    (AnalysisKey.requestToolchains (groups.groups.map (keyOf target configuration platform)))
  let contexts ← Evaluation.ofExcept
    (collect ((groups.groups.map Prod.fst).zip (results.map Prod.snd)))
  return ⟨groups, some contexts⟩

end ToolchainContexts

structure LoadedToolchains where
  executionPlatform : Option Label
  targetPlatform : Option Label
  toolchains : List (Label × AnalyzedTarget)

namespace LoadedToolchains

def get? (t : LoadedToolchains) (type : Label) : Option AnalyzedTarget :=
  Listing.find? type t.toolchains

def dependencyOn? (group : String) (label : Label) (deps : DependencyBundle) :
    Option AnalyzedTarget :=
  (deps.entries.find? fun e => e.1.label == label && e.1.kind == .toolchain group).map Prod.snd

def pairUp (group : String) (deps : DependencyBundle) :
    List (Label × Label) → Except Failure (List (Label × AnalyzedTarget))
  | [] => .ok []
  | (type, implementation) :: rest =>
    match dependencyOn? group implementation deps with
    | none =>
      .error (.internal
        s!"toolchain `{implementation}` of exec group `{group}` was not analyzed")
    | some t =>
      match pairUp group deps rest with
      | .error e => .error e
      | .ok ts => .ok ((type, t) :: ts)

/-- The toolchains of every group, taken from the dependencies. -/
def ofContexts (deps : DependencyBundle) :
    List (String × ToolchainContext) → Except Failure (List (String × LoadedToolchains))
  | [] => .ok []
  | (group, c) :: rest =>
    match pairUp group deps c.implementations.entries with
    | .error e => .error e
    | .ok ts =>
      match ofContexts deps rest with
      | .error e => .error e
      | .ok loaded => .ok ((group, ⟨c.executionPlatform, c.targetPlatform, ts⟩) :: loaded)

end LoadedToolchains
end BuildAnalysis
