import BuildAnalysis.Analysis.Dependency

/-!
# Values of a batch of dependencies

The value of an alias carries the label of the target it stands for, which may live in another
package and be analyzed in another configuration. So a batch is resolved in two passes: the first
requests the values and the packages of the labels asked for, the second the packages and
configurations that the values turn out to belong to.

Every failure of a batch contributes its causes; the most important failure is raised on behalf of
the target that asked, and of equally important ones the first.
-/
namespace BuildAnalysis

inductive Resolved (α : Type) where
  | found (a : α)
  /-- The dependency failed; `reported` tells whether it has said so itself. -/
  | failed (failure : TargetFailure) (reported : Bool)

/-- A value whose target or configuration may still have to be looked up. -/
structure PartialTarget where
  value : TargetValue
  target : Option Target
  configuration : Option Configuration

namespace Resolved

variable {α β : Type}

def failure? : Resolved α → Option TargetFailure
  | found _ => none
  | failed f _ => some f

def failures (rs : List (Resolved α)) : List TargetFailure := rs.filterMap failure?

/-- Whether every failure of a batch was reported where it arose. -/
def allReported (rs : List (Resolved α)) : Bool :=
  rs.all fun
    | found _ => true
    | failed _ reported => reported

def founds (rs : List (Resolved α)) : List α :=
  rs.filterMap fun
    | found a => some a
    | failed _ _ => none

end Resolved

namespace TargetFailure

structure Worst where
  tag : Option Tag := none
  failure : Option TargetFailure := none

/-- Takes a failure into account; it takes over if it is the first or strictly more important. -/
def Worst.add (w : Worst) (f : TargetFailure) : Worst :=
  let tag := Tag.moreImportant? w.tag f.detailedTag
  ⟨tag, if w.failure.isNone || tag ≠ w.tag then some f else w.failure⟩

def worst (fs : List TargetFailure) : Worst := fs.foldl Worst.add {}

end TargetFailure

namespace Batch

def causes {α : Type} (known : Causes) (rs : List (Resolved α)) : Causes :=
  (Resolved.failures rs).foldl (fun cs f => cs.addAll f.causes) known

/-- The failure of a batch, on behalf of the target that asked for it; `causes` are all causes
collected so far. -/
def raise? {α : Type} (owner : Label) (configuration : Option ConfigurationKey) (causes : Causes)
    (rs : List (Resolved α)) : Option Abort :=
  let worst := TargetFailure.worst (Resolved.failures rs)
  worst.failure.map fun f =>
    .dependency
      ((TargetFailure.ofCauses owner configuration f.message causes).withDetailedTag
        (Tag.moreImportant? causes.mostImportant worst.tag))
      (Resolved.allReported rs)

/-- Notes the causes of the failures of a batch and fails if there are any. -/
def settle {α : Type} (owner : Label) (configuration : Option ConfigurationKey)
    (rs : List (Resolved α)) : Evaluation (List α) := do
  Evaluation.note fun f => { f with causes := causes f.causes rs }
  match raise? owner configuration (← Evaluation.findings).causes rs with
  | some a => Evaluation.abort a
  | none => return Resolved.founds rs

def lookup (d : Dependency) (v : TargetValue) (loaded : Except Failure Package) :
    Except TargetFailure Target :=
  (Package.lookup loaded v.label.name).mapError fun e =>
    e.toTargetFailure d.label d.configurationKey

/-- What the first pass knows of a dependency. The target is looked up if the value belongs to the
package asked for, the configuration is known if it is the one asked for. -/
def firstLook (d : Dependency) (value : Except Failure TargetValue)
    (loaded : Except Failure Package) : Resolved PartialTarget :=
  match value with
  | .error e => .failed (e.toTargetFailure d.label d.configurationKey) true
  | .ok v =>
    let configuration := if v.configuration = d.configurationKey then d.configuration else none
    if v.label.package = d.label.package then
      match lookup d v loaded with
      | .ok t => .found ⟨v, some t, configuration⟩
      | .error f => .failed f false
    else .found ⟨v, none, configuration⟩

/-- What the second pass makes of it. -/
def secondLook (packages : List (PackagePath × Except Failure Package))
    (configurations : List (ConfigurationKey × Configuration)) (d : Dependency)
    (p : PartialTarget) : Resolved AnalyzedTarget :=
  let configuration :=
    match p.configuration with
    | some c => some c
    | none => p.value.configuration.bind fun k => Listing.find? k configurations
  match p.target with
  | some t => .found ⟨p.value, t, configuration⟩
  | none =>
    match lookup d p.value (Package.among packages p.value.label) with
    | .ok t => .found ⟨p.value, t, configuration⟩
    | .error f => .failed f false

def packagesWanted (ps : List PartialTarget) : List PackagePath :=
  Listing.distinct ((ps.filter fun p => p.target.isNone).map fun p => p.value.label.package)

def configurationsWanted (ps : List PartialTarget) : List ConfigurationKey :=
  Listing.distinct
    ((ps.filter fun p => p.configuration.isNone).filterMap fun p => p.value.configuration)

/-- The packages recorded by the values of a batch, added to those known. -/
def notePackages (values : List (Except Failure TargetValue)) (f : Findings) : Findings :=
  values.foldl (fun f v =>
    match v with
    | .ok v => f.addPackages v.packages
    | .error _ => f) f

def requestMissing (ps : List PartialTarget) :
    Evaluation (List (PackagePath × Except Failure Package) ×
      List (ConfigurationKey × Configuration)) :=
  let packages := packagesWanted ps
  let configurations := configurationsWanted ps
  if packages.isEmpty && configurations.isEmpty then pure ([], [])
  else Evaluation.request (AnalysisKey.requestPackagesAndConfigurations packages configurations)

/-- The values of dependencies, in the same order, each with its target and configuration. -/
def resolve (owner : Label) (configuration : Option ConfigurationKey) (deps : List Dependency) :
    Evaluation (List AnalyzedTarget) := do
  if deps.isEmpty then return []
  let (values, packages) ← Evaluation.request
    (AnalysisKey.requestTargetsAndPackages (deps.map Dependency.key)
      (deps.map fun d => d.label.package))
  Evaluation.note (notePackages values)
  let looked := (deps.zip (values.zip packages)).map fun e => firstLook e.1 e.2.1 e.2.2
  let partials ← settle owner configuration looked
  let (packages, configurations) ← requestMissing partials
  settle owner configuration
    ((deps.zip partials).map fun e => secondLook packages configurations e.1 e.2)

end Batch
end BuildAnalysis
