import BuildAnalysis.Analysis.AspectEvaluation
import BuildAnalysis.Engine.Scheduler

/-!
# Computing the keys of analysis

How each key is computed. The events of an evaluation are delivered, and progress is made, only when
it ends with a value or a failure.
-/
namespace BuildAnalysis

namespace Services

/-- The failure of every evaluation where no services are installed. -/
def missing : Failure :=
  .internal ("DiceData has no value of type `" ++
    "alloc::sync::Arc<strata_configured::services::AnalysisServices>`")

end Services

namespace AnalysisKey

def performAll : List AnalysisEffect → Engine.Task analysisSpace Unit
  | [] => .done ()
  | e :: es => .perform e (performAll es)

def deliver (f : Findings) : Engine.Task analysisSpace Unit :=
  performAll (f.events.map AnalysisEffect.deliver)

def ownFragments (t : Target) : SortedSet String :=
  (t.attributes.flatMap fun e => e.1.aspects).foldl
    (fun fs a => fs.union a.requiredFragments) t.requiredFragments

/-- Computes the fragments that a target and everything below it read. Dependencies that are broken
contribute none. -/
def computeFragments (label : Label) : Demand (Except Failure (SortedSet String)) := do
  let loaded ← Engine.Demand.value (S := analysisSpace) (.package label.package)
  match Package.lookup loaded label.name with
  | .error e => return .error e
  | .ok t =>
    let below ← requestFragments t.unconfiguredDeps
    return .ok (below.foldl (fun fs e =>
      match e.2 with
      | .ok more => fs.union more
      | .error _ => fs) (ownFragments t))

def computeToolchains (k : ToolchainKey) : Demand (Except Failure ToolchainContext) := do
  let registry ← Engine.Demand.value (S := analysisSpace) .registry
  (registry.trace k).forM fun line => Engine.Demand.lift (.log ⟨.info, line⟩ (.done ()))
  return (registry.resolve k).mapError ToolchainError.toFailure

/-- Runs an evaluation in a section of its own: it holds a permit, and if waiting is to give the
permit back it is observed. -/
def inSection {α : Type} (unblock : Bool) (d : Demand α) :
    Engine.Task analysisSpace (Except Engine.Suspension α) := do
  Engine.Task.perform (S := analysisSpace) .work (.done ())
  let previous ← Engine.Task.observe (S := analysisSpace) (if unblock then some () else none) .done
  let r ← d.run
  let _ ← Engine.Task.observe (S := analysisSpace) previous .done
  Engine.Task.perform (S := analysisSpace) .rest (.done ())
  return r

def initial (settings : AnalysisSettings) : Findings :=
  { packages := if settings.storeTransitivePackages then some ∅ else none }

def computeTarget (services : Option Services) (k : TargetKey) :
    Demand (Except Failure TargetValue) := do
  match services with
  | none => return .error Services.missing
  | some s =>
    let (result, found) ← ExceptT.mk (inSection s.settings.unblockWhileFetching
      ((k.evaluate s).runFrom (initial s.settings)))
    match result with
    | .ok value =>
      Engine.Demand.lift (deliver found)
      Engine.Demand.lift (.perform (.finish k.label) (.done ()))
      return .ok value
    | .error a =>
      let (found, failure) := k.reportFailure found a
      Engine.Demand.lift (deliver found)
      Engine.Demand.lift
        (.log ⟨.debug, s!"Analysis of {k} failed: {failure.message}"⟩ (.done ()))
      return .error (.ofTargetFailure failure)

def computeAspect (services : Option Services) (k : AspectKey) :
    Demand (Except Failure AspectValue) := do
  match services with
  | none => return .error Services.missing
  | some s =>
    let (result, found) ← (k.evaluate s).runFrom {}
    match result with
    | .ok value =>
      Engine.Demand.lift (deliver found)
      return .ok value
    | .error a =>
      let (found, failure) := k.reportFailure found a
      Engine.Demand.lift (deliver found)
      return .error (.ofTargetFailure failure)

def computation (services : Option Services) : Engine.Computation analysisSpace
  | .package _ => .done (.error .notReady)
  | .registry => .done (.error .notReady)
  | .configuration k => .done (.ok ⟨k⟩)
  | .fragments l => (computeFragments l).run
  | .toolchains k => (computeToolchains k).run
  | .target k => (computeTarget services k).run
  | .aspect k => (computeAspect services k).run

end AnalysisKey
end BuildAnalysis
