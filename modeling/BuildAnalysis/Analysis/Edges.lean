import BuildAnalysis.Analysis.Condition
import BuildAnalysis.Analysis.ToolchainContexts

/-!
# From edges to dependencies

The edges of a target are the labels of its dependency attributes, in configured order, and the
toolchains of its execution groups. Their targets are loaded, their transitions applied, and the
resulting options trimmed to the fragments that the dependency and everything below it read.
-/
namespace BuildAnalysis

structure EdgeSource where
  target : Target
  configuration : Option Configuration
  conditions : Conditions := ∅
  toolchains : Option ToolchainContexts := none
  /-- If there is an aspect, only its attributes are followed. -/
  aspect : Option Aspect := none

namespace EdgeSource

def configurationKey (s : EdgeSource) : Option ConfigurationKey :=
  s.configuration.map Configuration.key

def failure (s : EdgeSource) (tag : Tag) (message : String) : TargetFailure :=
  .ofTarget s.target.label s.configurationKey tag message

/-- The transition of an attribute. Execution platforms are those of the target's groups; without
one only the feature flags are dropped. -/
def transition (s : EdgeSource) (a : AttrDecl) : Except Abort Transition :=
  match a.transition with
  | .target => .ok .keep
  | .none => .ok .drop
  | .custom t => .ok t
  | .execution group =>
    let name := group.getD ExecGroup.defaultName
    let known := s.toolchains.all fun t => (t.groups.get? name).isSome
    if !known then
      .error (.creation (s.failure .invalidExecGroup
        s!"Attribute `{a.name}` of `{s.target.label}` uses undeclared exec group `{name}`"))
    else
      match (s.toolchains.bind fun t => t.get? name).bind ToolchainContext.executionPlatform with
      | some platform => .ok (.execution platform)
      | none => .ok .dropFlags

def labels (s : EdgeSource) (a : AttrDecl) (e : AttrExpr) : Except Abort (List Label) :=
  match s.conditions.configure s.configuration e with
  | .ok v => .ok v.labels
  | .error f =>
    .error (.creation (s.failure f.bestTag
      s!"Error configuring attribute `{a.name}` of `{s.target.label}`: {f.message}"))

def attributeEdges (s : EdgeSource) (a : AttrDecl) (e : AttrExpr) (kind : DependencyKind)
    (aspects : List Aspect) : Except Abort (List Edge) :=
  if a.kind ≠ .dep then .ok []
  else
    match s.labels a e with
    | .error x => .error x
    | .ok [] => .ok []
    | .ok ls =>
      match s.transition a with
      | .error x => .error x
      | .ok t =>
        .ok (ls.map fun l => { kind := kind, label := l, transition := t, aspects := aspects })

def allAttributeEdges (s : EdgeSource) : Except Abort (List Edge) :=
  let parts :=
    match s.aspect with
    | none =>
      s.target.attributes.map fun e =>
        s.attributeEdges e.1.toAttrDecl e.2 (.attribute e.1.name) e.1.aspects
    | some aspect =>
      aspect.attributes.map fun a =>
        s.attributeEdges a a.default (.aspectAttribute aspect.id a.name) []
  (sequence parts).map List.flatten

def toolchainEdges (s : EdgeSource) (group : String) (c : ToolchainContext) : List Edge :=
  let forPlatform := s.target.rule?.any Rule.usesToolchainTransition
  c.labels.map fun l =>
    { kind := .toolchain group
      label := l
      transition := if forPlatform then .dropFlags else .keep
      executionPlatform := if forPlatform then c.executionPlatform else none }

def edges (s : EdgeSource) : Except Abort (List Edge) :=
  (s.allAttributeEdges).map fun es =>
    es ++ ((s.toolchains.bind ToolchainContexts.contexts).getD []).flatMap fun e =>
      s.toolchainEdges e.1 e.2

/-- Notes that the target of an edge was looked up; a missing one is reported and is a cause. -/
def noteLookup (s : EdgeSource) (loaded : List (PackagePath × Except Failure Package))
    (f : Findings) (e : Edge × Except Failure Target) : Findings :=
  let f :=
    match Listing.find? e.1.label.package loaded with
    | some (.ok p) => f.addPackage p.label
    | _ => f
  match e.2 with
  | .ok _ => f
  | .error failure =>
    (f.report (.error s.target.label failure.message)).addCause
      ⟨e.1.label, none, failure.bestTag, failure.message⟩

def loadTargets (s : EdgeSource) (es : List Edge) : Evaluation (List (Edge × Target)) := do
  let loaded ← Evaluation.request
    (AnalysisKey.requestPackages (Listing.distinct (es.map fun e => e.label.package)))
  let looked := es.map fun e => (e, Package.lookup (Package.among loaded e.label) e.label.name)
  Evaluation.note fun f => looked.foldl (s.noteLookup loaded) f
  return looked.filterMap fun e => e.2.toOption.map fun t => (e.1, t)

/-- The options of a dependency, trimmed to the fragments it needs if those are known. -/
def trimmed (needed : Option (Except Failure (SortedSet String))) (o : BuildOptions) :
    ConfigurationKey :=
  match needed with
  | some (.ok fragments) => ⟨o.trim fragments⟩
  | _ => ⟨o⟩

/-- The configurations in which an edge leads to its target, with their split keys. -/
def configurationsOf (s : EdgeSource) (parent : Configuration)
    (fragments : List (Label × Except Failure (SortedSet String))) (e : Edge) (t : Target) :
    Except Abort (List (Edge × Option String × Option ConfigurationKey)) :=
  if !t.isConfigurable then .ok [(e, none, none)]
  else
    let trim := trimmed (Listing.find? e.label fragments)
    match e.transition.apply parent.options with
    | .error f =>
      .error (.creation (s.failure .transition
        s!"Error applying transition `{e.transition.id}` to `{e.label}`: {f.message}"))
    | .ok .noConfiguration => .ok [(e, none, none)]
    | .ok (.patched o) => .ok [(e, none, some (trim o))]
    | .ok (.split os) => .ok (os.map fun p => (e, some p.1, some (trim p.2)))

def dependency (e : Edge) (splitKey : Option String) (configuration : Option Configuration) :
    Dependency :=
  ⟨e.kind, e.label, configuration, e.executionPlatform, splitKey, e.aspects⟩

/-- The dependencies of a target that has no configuration: none of them has one. -/
def unconfiguredDependencies (nodes : List (Edge × Target)) : List Dependency :=
  nodes.map fun n => dependency n.1 none none

def dependencies (s : EdgeSource) (nodes : List (Edge × Target)) :
    Evaluation (List Dependency) := do
  match s.configuration with
  | none => return unconfiguredDependencies nodes
  | some parent =>
    let configurable := (nodes.filter fun n => n.2.isConfigurable).map fun n => n.1.label
    let fragments ← Evaluation.request
      (AnalysisKey.requestFragments (Listing.distinct configurable))
    let expanded ← Evaluation.ofExcept
      (sequence (nodes.map fun n => s.configurationsOf parent fragments n.1 n.2))
    let configurations ← Evaluation.request (AnalysisKey.requestConfigurations
      (Listing.distinct (expanded.flatten.filterMap fun e => e.2.2)))
    return Listing.distinct (expanded.flatten.map fun e =>
      dependency e.1 e.2.1 (e.2.2.bind fun k => Listing.find? k configurations))

end EdgeSource
end BuildAnalysis
