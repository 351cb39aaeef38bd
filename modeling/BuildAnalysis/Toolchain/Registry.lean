import BuildAnalysis.Configuration.Key

/-!
# Platforms and toolchains

A workspace registers execution platforms, target platforms and toolchains, each with constraints,
in order of priority. A toolchain can be used on an execution platform, for a target platform, that
have all the constraints it asks for.
-/
namespace BuildAnalysis

structure ExecutionPlatform where
  label : Label
  constraints : SortedSet Label
  deriving DecidableEq

structure Toolchain where
  type : Label
  implementation : Label
  execution : SortedSet Label
  target : SortedSet Label
  deriving DecidableEq

/-- What a workspace registers, in order of priority. -/
structure ToolchainRegistry where
  executionPlatforms : List ExecutionPlatform := []
  targetPlatforms : SortedMap Label (SortedSet Label) := ∅
  toolchains : List Toolchain := []
  deriving DecidableEq

/-- What the resolution of an execution group depends on. -/
structure ToolchainKey where
  configuration : ConfigurationKey
  types : SortedSet Label
  constraints : SortedSet Label
  /-- The only platform to consider. -/
  platform : Option Label := none
  /-- Whether the steps of the resolution are logged. -/
  traced : Bool := false
  deriving DecidableEq

namespace ToolchainRegistry

def addExecutionPlatform (r : ToolchainRegistry) (label : Label) (constraints : List Label) :
    ToolchainRegistry :=
  { r with executionPlatforms := r.executionPlatforms ++ [⟨label, .ofList constraints⟩] }

def addTargetPlatform (r : ToolchainRegistry) (label : Label) (constraints : List Label) :
    ToolchainRegistry :=
  { r with targetPlatforms := r.targetPlatforms.insert label (.ofList constraints) }

def addToolchain (r : ToolchainRegistry) (t : Toolchain) : ToolchainRegistry :=
  { r with toolchains := r.toolchains ++ [t] }

end ToolchainRegistry

namespace Toolchain

/-- Whether the toolchain can be used under the given constraints. -/
def isUsable (t : Toolchain) (execution target : SortedSet Label) : Bool :=
  t.execution.isSubset execution && t.target.isSubset target

end Toolchain

namespace ToolchainKey

def ofGroup (configuration : ConfigurationKey) (types constraints : SortedSet Label) :
    ToolchainKey :=
  { configuration := configuration, types := types, constraints := constraints }

instance : ToString ToolchainKey where
  toString k :=
    "toolchain resolution [" ++ ", ".intercalate (k.types.members.map toString) ++ "] (" ++
      toString k.configuration ++ ")" ++ (k.platform.elim "" fun p => s!" on {p}")

def labelsText (ls : SortedSet Label) : String :=
  "\x7b" ++ ", ".intercalate (ls.members.map Label.debugText) ++ "\x7d"

def debugText (k : ToolchainKey) : String :=
  Text.record "ToolchainContextKey"
    [("cfg", toString k.configuration), ("required_toolchains", labelsText k.types),
      ("exec_constraints", labelsText k.constraints),
      ("forced_execution_platform", Text.optional (k.platform.map Label.debugText)),
      ("debug", if k.traced then "true" else "false")]

def targetPlatform (k : ToolchainKey) : Option Label :=
  k.configuration.options.platform.targetPlatform

end ToolchainKey
end BuildAnalysis
