import BuildAnalysis.Analysis.Provider
import BuildAnalysis.Analysis.TargetKey
import BuildAnalysis.Target.Package

/-!
# Analyzed targets

The value of a configured target. The value of an alias is that of the target it stands for, marked
with the label of the alias.
-/
namespace BuildAnalysis

inductive TargetValue.Kind where
  /-- The configuration asked for does not fit the target. -/
  | empty
  | sourceFile
  | rule
  deriving DecidableEq

def TargetValue.Kind.name : TargetValue.Kind → String
  | .empty => "empty"
  | .sourceFile => "source"
  | .rule => "rule"

structure TargetValue where
  label : Label
  configuration : Option ConfigurationKey
  kind : TargetValue.Kind
  providers : Providers := ∅
  /-- The alias that the value was requested by. -/
  aliasLabel : Option Label := none
  /-- The direct dependencies, toolchains included, in edge order. -/
  dependencies : List TargetKey := []
  /-- The toolchains resolved in any execution group. -/
  toolchains : SortedSet Label := ∅
  /-- The packages loaded for the target and its dependencies, if they are recorded. -/
  packages : Option (SortedSet PackagePath) := none
  deriving DecidableEq

namespace TargetValue

def empty (label : Label) (configuration : Option ConfigurationKey) : TargetValue :=
  { label := label, configuration := configuration, kind := .empty }

def sourceFile (label : Label) : TargetValue :=
  { label := label, configuration := none, kind := .sourceFile }

def rule (label : Label) (configuration : Option ConfigurationKey) (providers : Providers) :
    TargetValue :=
  { label := label, configuration := configuration, kind := .rule, providers := providers }

def ofAlias (label : Label) (actual : TargetValue) : TargetValue :=
  { label := actual.label, configuration := actual.configuration, kind := actual.kind
    providers := actual.providers, aliasLabel := some label }

def isEmpty (v : TargetValue) : Bool := v.kind == .empty

def isSourceFile (v : TargetValue) : Bool := v.kind == .sourceFile

end TargetValue

structure AnalyzedTarget where
  value : TargetValue
  target : Target
  configuration : Option Configuration
  deriving DecidableEq

namespace AnalyzedTarget

def label (t : AnalyzedTarget) : Label := t.value.label

def providers (t : AnalyzedTarget) : Providers := t.value.providers

def withProviders (t : AnalyzedTarget) (extra : Providers) :
    Except RepeatedProvider AnalyzedTarget :=
  if extra.isEmpty then .ok t
  else match t.providers.merge extra with
    | .error e => .error e
    | .ok providers => .ok { t with value := { t.value with providers := providers } }

end AnalyzedTarget
end BuildAnalysis
