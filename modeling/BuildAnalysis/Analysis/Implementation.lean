import BuildAnalysis.Analysis.Bundle

/-!
# Rule and aspect implementations

An implementation sees the target being analyzed and its dependencies, may report events and
request further values, and ends with providers. A rule may instead let its target stand for one of
the dependencies.
-/
namespace BuildAnalysis

/-- A running implementation: it keeps the events that it reports. -/
abbrev Build (α : Type) := ExceptT Failure (StateT (List Event) Demand) α

namespace Build

variable {α : Type}

def request (d : Demand α) : Build α := ExceptT.lift (StateT.lift d)

def report (e : Event) : Build Unit := ExceptT.lift (modify (· ++ [e]))

def fail (f : Failure) : Build α := throw f

def ofExcept (r : Except Failure α) : Build α := ExceptT.mk (pure r)

def configuration (k : ConfigurationKey) : Build Configuration :=
  request (Engine.Demand.value (S := analysisSpace) (.configuration k))

def target (k : TargetKey) : Build (Except Failure TargetValue) :=
  request (Engine.Demand.value (S := analysisSpace) (.target k))

end Build

inductive RuleOutput where
  | providers (p : Providers)
  /-- The target stands for one of its dependencies. -/
  | standsFor (label : Label)

structure RuleContext where
  target : Target
  configuration : Option Configuration
  conditions : Conditions
  dependencies : DependencyBundle
  /-- The analyzed toolchains by execution group, unless the rule does without. -/
  toolchains : Option (List (String × LoadedToolchains))
  groups : ExecGroups

structure AspectContext where
  aspect : Aspect
  base : AnalyzedTarget
  dependencies : DependencyBundle

namespace RuleContext

def label (c : RuleContext) : Label := c.target.label

def attr (c : RuleContext) (name : String) : Except Failure AttrValue :=
  match c.target.attr? name with
  | none => .error (.new .input s!"`{c.label}` has no attribute `{name}`")
  | some e => c.conditions.configure c.configuration e

def deps (c : RuleContext) (attr : String) : List AnalyzedTarget :=
  c.dependencies.ofKind (.attribute attr)

def toolchainsOf (c : RuleContext) (group : String) : Option LoadedToolchains :=
  c.toolchains.bind (Listing.find? group)

def toolchain? (c : RuleContext) (type : Label) : Option AnalyzedTarget :=
  (c.toolchainsOf ExecGroup.defaultName).bind fun t => t.get? type

def reportError (c : RuleContext) (message : String) : Build Unit :=
  Build.report (.error c.label message)

def reportWarning (c : RuleContext) (message : String) : Build Unit :=
  Build.report (.warning c.label message)

end RuleContext

namespace AspectContext

def deps (c : AspectContext) (attr : String) : List AnalyzedTarget :=
  c.dependencies.ofKind (.aspectAttribute c.aspect.id attr)

def reportError (c : AspectContext) (message : String) : Build Unit :=
  Build.report (.error c.base.label message)

end AspectContext

abbrev RuleImplementation := RuleContext → Build RuleOutput

abbrev AspectImplementation := AspectContext → Build Providers

structure Implementations where
  rules : List (String × RuleImplementation) := []
  aspects : List (String × AspectImplementation) := []

namespace Implementations

def rule? (i : Implementations) (id : String) : Option RuleImplementation :=
  Listing.find? id i.rules

def aspect? (i : Implementations) (id : String) : Option AspectImplementation :=
  Listing.find? id i.aspects

def addRule (i : Implementations) (id : String) (r : RuleImplementation) : Implementations :=
  { i with rules := Listing.put id r i.rules }

def addAspect (i : Implementations) (id : String) (a : AspectImplementation) : Implementations :=
  { i with aspects := Listing.put id a i.aspects }

/-- Registers implementations of aspects by their ids; the last one of an id counts. -/
def addAspects (i : Implementations) (as : List (String × AspectImplementation)) : Implementations :=
  as.foldl (fun i a => i.addAspect a.1 a.2) i

end Implementations
end BuildAnalysis
