import BuildAnalysis.Configuration.Key

/-!
# Configured targets

The unit of analysis is a target in a configuration, or without one if the target does not depend
on the configuration. A toolchain that was resolved for an execution platform is analyzed for that
platform.
-/
namespace BuildAnalysis

structure TargetKey where
  label : Label
  configuration : Option ConfigurationKey := none
  /-- The execution platform of the default execution group, if it is not chosen by resolution. -/
  executionPlatform : Option Label := none
  deriving DecidableEq

namespace TargetKey

instance : ToString TargetKey where
  toString k :=
    toString k.label ++ (k.configuration.elim "" fun c => s!" ({c})") ++
      (k.executionPlatform.elim "" fun p => s!" [exec {p}]")

def debugText (k : TargetKey) : String :=
  Text.record "ConfiguredTargetKey"
    [("label", k.label.debugText), ("cfg", Text.optional (k.configuration.map toString)),
      ("exec_platform", Text.optional (k.executionPlatform.map Label.debugText))]

/-- By label, then by configuration, then by execution platform; nothing comes before something. -/
instance : Ord TargetKey :=
  ⟨compareLex (compareOn TargetKey.label)
    (compareLex (compareOn TargetKey.configuration) (compareOn TargetKey.executionPlatform))⟩

end TargetKey
end BuildAnalysis
