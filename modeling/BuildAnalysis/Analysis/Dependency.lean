import BuildAnalysis.Analysis.Evaluation

/-!
# Dependencies

An edge says why a target depends on another and how the other's configuration follows from its
own. Once that is resolved the edge is a dependency, which names a configured target; a bundle pairs
the dependencies of a target with their values, in edge order.
-/
namespace BuildAnalysis

inductive DependencyKind where
  | attribute (attr : String)
  | aspectAttribute (aspect attr : String)
  | toolchain (group : String)
  | condition
  deriving DecidableEq

structure Edge where
  kind : DependencyKind
  label : Label
  transition : Transition
  executionPlatform : Option Label := none
  aspects : List Aspect := []
  deriving DecidableEq

structure Dependency where
  kind : DependencyKind
  label : Label
  configuration : Option Configuration
  executionPlatform : Option Label := none
  /-- Which of the configurations of a split this is. -/
  splitKey : Option String := none
  aspects : List Aspect := []
  deriving DecidableEq

namespace Dependency

def configurationKey (d : Dependency) : Option ConfigurationKey :=
  d.configuration.map Configuration.key

def key (d : Dependency) : TargetKey := ⟨d.label, d.configurationKey, d.executionPlatform⟩

end Dependency

structure DependencyBundle where
  entries : List (Dependency × AnalyzedTarget) := []

namespace DependencyBundle

def ofKind (b : DependencyBundle) (kind : DependencyKind) : List AnalyzedTarget :=
  (b.entries.filter fun e => e.1.kind == kind).map Prod.snd

def keys (b : DependencyBundle) : List TargetKey :=
  Listing.distinct (b.entries.map fun e => e.1.key)

def size (b : DependencyBundle) : Nat := b.entries.length

def isEmpty (b : DependencyBundle) : Bool := b.entries.isEmpty

end DependencyBundle
end BuildAnalysis
