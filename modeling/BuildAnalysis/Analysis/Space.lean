import BuildAnalysis.Analysis.Event
import BuildAnalysis.Analysis.Permit
import BuildAnalysis.Analysis.TargetValue
import BuildAnalysis.Engine.Task
import BuildAnalysis.Target.Diagnostic
import BuildAnalysis.Toolchain.Resolution

/-!
# The keys of analysis

Loading sets the packages and the registry of toolchains; everything else is computed from them. The
world holds what leaves the engine: delivered events, progress, and the permits of the evaluations.
-/
namespace BuildAnalysis

/-- An aspect applied to a configured target. -/
structure AspectKey where
  aspect : Aspect
  base : TargetKey
  deriving DecidableEq

namespace AspectKey

instance : ToString AspectKey := ⟨fun k => s!"aspect {k.aspect.id} on {k.base}"⟩

def debugText (k : AspectKey) : String :=
  Text.record "AspectKey" [("aspect", k.aspect.debugText), ("base", k.base.debugText)]

end AspectKey

structure AspectValue where
  aspect : String
  base : TargetKey
  providers : Providers
  deriving DecidableEq

inductive AnalysisKey where
  | package (path : PackagePath)
  /-- The registered platforms and toolchains. -/
  | registry
  | configuration (key : ConfigurationKey)
  /-- The fragments that a target and everything below it read. -/
  | fragments (label : Label)
  | toolchains (key : ToolchainKey)
  | target (key : TargetKey)
  | aspect (key : AspectKey)
  deriving DecidableEq

namespace AnalysisKey

instance : ToString AnalysisKey where
  toString
    | package p => s!"package {p}"
    | registry => "registered toolchains"
    | configuration k => s!"configuration {k}"
    | fragments l => s!"transitive fragments of {l}"
    | toolchains k => toString k
    | target k => toString k
    | aspect k => toString k

def debugText : AnalysisKey → String
  | package p => Text.applied "PackageKey" [p.debugText]
  | registry => "RegisteredToolchainsKey"
  | configuration k => Text.applied "ConfigurationLookupKey" [toString k]
  | fragments l => Text.applied "TransitiveFragmentsKey" [l.debugText]
  | toolchains k => k.debugText
  | target k => k.debugText
  | aspect k => k.debugText

abbrev Value : AnalysisKey → Type
  | package _ => Except Failure Package
  | registry => ToolchainRegistry
  | configuration _ => Configuration
  | fragments _ => Except Failure (SortedSet String)
  | toolchains _ => Except Failure ToolchainContext
  | target _ => Except Failure TargetValue
  | aspect _ => Except Failure AspectValue

/-- Whether two results are the same success; a failure is like nothing. -/
def sameSuccess {α : Type} (same : α → α → Bool) : Except Failure α → Except Failure α → Bool
  | .ok a, .ok b => same a b
  | _, _ => false

def sameAcross : (k l : AnalysisKey) → Value k → Value l → Bool
  | package _, package _, a, b => sameSuccess Package.same a b
  | registry, registry, a, b => a == b
  | configuration _, configuration _, a, b => a == b
  | fragments _, fragments _, a, b => sameSuccess (· == ·) a b
  | toolchains _, toolchains _, a, b => sameSuccess (· == ·) a b
  | target _, target _, a, b => sameSuccess (· == ·) a b
  | aspect _, aspect _, a, b => sameSuccess (· == ·) a b
  | _, _, _, _ => false

def sameValue (k : AnalysisKey) (a b : Value k) : Bool := sameAcross k k a b

/-- The failure of a target or of an aspect; other failures only show in what depends on them. -/
def failure? : (k : AnalysisKey) → Value k → Option Failure
  | target _, .error e => some e
  | aspect _, .error e => some e
  | _, _ => none

end AnalysisKey

/-- What has left the engine. -/
structure AnalysisWorld where
  permits : Permits
  events : List Event := []
  /-- The targets analyzed successfully, in the order in which they were done. -/
  progress : List Label := []

inductive AnalysisEffect where
  /-- An evaluation begins or goes on: it takes a permit. -/
  | work
  /-- An evaluation ends or waits: it gives its permit back. -/
  | rest
  | deliver (event : Event)
  | finish (label : Label)

namespace AnalysisWorld

/-- The world after an effect, and what is logged. Evaluations run one at a time here and hold at
most one permit each, so taking one does not block. -/
def perform : AnalysisEffect → AnalysisWorld → AnalysisWorld × List LogEntry
  | .work, w => ({ w with permits := w.permits.acquire?.getD w.permits }, [])
  | .rest, w => ({ w with permits := w.permits.release }, [])
  | .deliver e, w => ({ w with events := w.events ++ [e] }, [e.logEntry])
  | .finish l, w => ({ w with progress := w.progress ++ [l] }, [])

end AnalysisWorld

/-- The key space of analysis. An observed evaluation gives its permit back around each request. -/
def analysisSpace : Engine.KeySpace where
  Key := AnalysisKey
  Value := AnalysisKey.Value
  keyText := toString
  isInjected
    | .package _ => true
    | .registry => true
    | _ => false
  sameValue := AnalysisKey.sameValue
  failure? := AnalysisKey.failure?
  World := AnalysisWorld
  Effect := AnalysisEffect
  perform := AnalysisWorld.perform
  Observer := Unit
  beforeRequest _ := .rest
  afterRequest _ := .work

end BuildAnalysis
