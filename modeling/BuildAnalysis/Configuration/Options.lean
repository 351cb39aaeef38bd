import BuildAnalysis.Collection.SortedMap
import BuildAnalysis.Label.Pattern

/-!
# Build options

The option values a configuration is made of. Options are grouped in named fragments; rules say
which fragments they read, and `trim` keeps only those. Feature flags and platform options are kept
by every trimming. The diagnostic form of the options is what identifies them.
-/
namespace BuildAnalysis

structure ExecutionConstraints where
  pattern : Pattern
  constraints : List Label
  deriving DecidableEq

/-- Options that no trimming removes. -/
structure PlatformOptions where
  targetPlatform : Option Label := none
  extraConstraints : List ExecutionConstraints := []
  /-- Targets whose toolchain resolution is traced. -/
  tracedToolchains : List Pattern := []
  deriving DecidableEq

structure BuildOptions where
  fragments : SortedMap String (SortedMap String String) := ∅
  featureFlags : SortedMap Label String := ∅
  platform : PlatformOptions := {}
  deriving DecidableEq

namespace ExecutionConstraints

def debugText (c : ExecutionConstraints) : String :=
  Text.record "ExecConstraintRule"
    [("filter", c.pattern.debugText),
      ("constraints", Text.bracketed (c.constraints.map Label.debugText))]

end ExecutionConstraints

namespace PlatformOptions

def debugText (p : PlatformOptions) : String :=
  Text.record "PlatformOptions"
    [("target_platform", Text.optional (p.targetPlatform.map Label.debugText)),
      ("extra_execution_constraints",
        Text.bracketed (p.extraConstraints.map ExecutionConstraints.debugText)),
      ("debug_toolchain_resolution", Text.bracketed (p.tracedToolchains.map Pattern.debugText))]

end PlatformOptions

namespace BuildOptions

def fragmentText (options : SortedMap String String) : String :=
  Text.mapping (options.entries.map fun e => (Text.quote e.1, Text.quote e.2))

/-- The diagnostic form; options are identified by it. -/
def debugText (o : BuildOptions) : String :=
  Text.record "BuildOptions"
    [("fragments", Text.mapping
        (o.fragments.entries.map fun e => (Text.quote e.1, fragmentText e.2))),
      ("feature_flags", Text.mapping
        (o.featureFlags.entries.map fun e => (e.1.debugText, Text.quote e.2))),
      ("platform", o.platform.debugText)]

def setOption (o : BuildOptions) (fragment option value : String) : BuildOptions :=
  { o with
    fragments :=
      o.fragments.insert fragment (((o.fragments.get? fragment).getD ∅).insert option value) }

def setFlag (o : BuildOptions) (flag : Label) (value : String) : BuildOptions :=
  { o with featureFlags := o.featureFlags.insert flag value }

def clearFlags (o : BuildOptions) : BuildOptions := { o with featureFlags := ∅ }

def setTargetPlatform (o : BuildOptions) (platform : Option Label) : BuildOptions :=
  { o with platform := { o.platform with targetPlatform := platform } }

def addExecutionConstraints (o : BuildOptions) (pattern : Pattern) (constraints : List Label) :
    BuildOptions :=
  { o with
    platform :=
      { o.platform with extraConstraints := o.platform.extraConstraints ++ [⟨pattern, constraints⟩] } }

def addTracedToolchains (o : BuildOptions) (pattern : Pattern) : BuildOptions :=
  { o with
    platform := { o.platform with tracedToolchains := o.platform.tracedToolchains ++ [pattern] } }

def option? (o : BuildOptions) (fragment option : String) : Option String :=
  (o.fragments.get? fragment).bind fun f => f.get? option

/-- The fragment and the option that a setting name joins by its first dot. -/
def splitSetting? (name : String) : Option (String × String) :=
  match name.toList.dropWhile (· != '.') with
  | [] => none
  | _ :: option => some (String.ofList (name.toList.takeWhile (· != '.')), String.ofList option)

def setting? (o : BuildOptions) (name : String) : Option String :=
  (splitSetting? name).bind fun p => o.option? p.1 p.2

def flag? (o : BuildOptions) (flag : Label) : Option String := o.featureFlags.get? flag

def trim (o : BuildOptions) (fragments : SortedSet String) : BuildOptions :=
  { o with fragments := o.fragments.filterKeys fun f => decide (f ∈ fragments) }

end BuildOptions
end BuildAnalysis
