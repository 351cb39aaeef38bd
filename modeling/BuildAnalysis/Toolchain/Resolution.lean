import BuildAnalysis.Failure.Basic
import BuildAnalysis.Toolchain.Registry

/-!
# Toolchain resolution

Resolution picks the first execution platform that has the constraints asked for and a usable
toolchain of every type asked for, and of each type the first usable toolchain.
-/
namespace BuildAnalysis

inductive ToolchainError where
  | noPlatform (types : List Label) (target : Option Label)
  | noToolchains (types : List Label)
  | unknownExecutionPlatform (label : Label)
  | unknownTargetPlatform (label : Label)
  deriving DecidableEq

namespace ToolchainError

def tag (_ : ToolchainError) : Tag := .toolchainResolution

def listed (ls : List Label) : String := ", ".intercalate (ls.map toString)

def message : ToolchainError → String
  | noPlatform types target =>
    "Unable to find an execution platform for toolchains [" ++ listed types ++
      "] and target platform " ++ target.elim "<none>" toString
  | noToolchains types => "No matching toolchains found for types " ++ listed types
  | unknownExecutionPlatform label => s!"Execution platform `{label}` is not registered"
  | unknownTargetPlatform label => s!"Target platform `{label}` is not registered"

def toFailure (e : ToolchainError) : Failure := .new e.tag e.message

end ToolchainError

/-- The outcome of resolution for one execution group. -/
structure ToolchainContext where
  executionPlatform : Option Label
  targetPlatform : Option Label
  /-- The implementation of each type. -/
  implementations : SortedMap Label Label
  deriving DecidableEq

namespace ToolchainContext

/-- The implementations, in the order of their types. -/
def labels (c : ToolchainContext) : List Label := c.implementations.entries.map Prod.snd

end ToolchainContext

namespace ToolchainRegistry

def toolchain? (r : ToolchainRegistry) (type : Label) (execution target : SortedSet Label) :
    Option Toolchain :=
  r.toolchains.find? fun t => t.type == type && t.isUsable execution target

def targetConstraints (r : ToolchainRegistry) (k : ToolchainKey) :
    Except ToolchainError (SortedSet Label) :=
  match k.targetPlatform with
  | none => .ok ∅
  | some p =>
    match r.targetPlatforms.get? p with
    | some constraints => .ok constraints
    | none => .error (.unknownTargetPlatform p)

/-- The platforms to consider, whatever their constraints. -/
def offered (r : ToolchainRegistry) (k : ToolchainKey) :
    Except ToolchainError (List ExecutionPlatform) :=
  match k.platform with
  | none => .ok r.executionPlatforms
  | some forced =>
    match r.executionPlatforms.find? fun p => p.label == forced with
    | some p => .ok [p]
    | none => .error (.unknownExecutionPlatform forced)

def isSuitable (k : ToolchainKey) (p : ExecutionPlatform) : Bool :=
  k.constraints.isSubset p.constraints

/-- The first usable implementation of each type on a platform, or the first type without one. -/
def serve (r : ToolchainRegistry) (execution target : SortedSet Label) :
    List Label → SortedMap Label Label → Except Label (SortedMap Label Label)
  | [], found => .ok found
  | type :: types, found =>
    match r.toolchain? type execution target with
    | none => .error type
    | some t => serve r execution target types (found.insert type t.implementation)

/-- Tries platforms in order; the first that serves all types. -/
def firstServed? (r : ToolchainRegistry) (k : ToolchainKey) (target : SortedSet Label) :
    List ExecutionPlatform → Option ToolchainContext
  | [] => none
  | p :: ps =>
    match r.serve p.constraints target k.types.members ∅ with
    | .ok implementations => some ⟨some p.label, k.targetPlatform, implementations⟩
    | .error _ => firstServed? r k target ps

/-- The types that no platform of the list serves. -/
def unserved (r : ToolchainRegistry) (k : ToolchainKey) (target : SortedSet Label)
    (ps : List ExecutionPlatform) : List Label :=
  k.types.members.filter fun type =>
    !(ps.any fun p => (r.toolchain? type p.constraints target).isSome)

def resolve (r : ToolchainRegistry) (k : ToolchainKey) : Except ToolchainError ToolchainContext :=
  match r.targetConstraints k with
  | .error e => .error e
  | .ok target =>
    match r.offered k with
    | .error e => .error e
    | .ok offered =>
      let suitable := offered.filter (isSuitable k)
      if suitable.isEmpty && k.types.isEmpty && r.executionPlatforms.isEmpty then
        .ok ⟨none, k.targetPlatform, ∅⟩
      else
        match r.firstServed? k target suitable with
        | some context => .ok context
        | none =>
          let missing := r.unserved k target suitable
          if !suitable.isEmpty && !missing.isEmpty then .error (.noToolchains missing)
          else .error (.noPlatform k.types.members k.targetPlatform)

def traceServed (r : ToolchainRegistry) (k : ToolchainKey) (target : SortedSet Label) :
    List ExecutionPlatform → List String
  | [] => []
  | p :: ps =>
    match r.serve p.constraints target k.types.members ∅ with
    | .ok implementations =>
      [s!"ToolchainResolution: Selected execution platform {p.label}, " ++
        ", ".intercalate
          (implementations.entries.map fun e => s!"type {e.1} -> toolchain {e.2}")]
    | .error type =>
      s!"ToolchainResolution: No {type} toolchain found for execution platform {p.label}" ::
        traceServed r k target ps

def traceRejected (k : ToolchainKey) (offered : List ExecutionPlatform) : List String :=
  (offered.filter fun p => !isSuitable k p).map fun p =>
    s!"ToolchainResolution: Rejected execution platform {p.label}, missing constraints"

/-- The trace of a resolution, empty unless one is asked for. -/
def trace (r : ToolchainRegistry) (k : ToolchainKey) : List String :=
  if !k.traced then []
  else
    match r.targetConstraints k with
    | .error _ => []
    | .ok target =>
      match r.offered k with
      | .error _ => []
      | .ok offered =>
        let suitable := offered.filter (isSuitable k)
        traceRejected k offered ++ r.traceServed k target suitable

end ToolchainRegistry
end BuildAnalysis
