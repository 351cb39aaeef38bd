import BuildAnalysis.Analysis.Space

/-!
# Evaluations

An evaluation requests values, notes what it finds on the way and may fail. Its findings survive a
failure, but not a request without values: then it stops, and the next run starts with nothing.
-/
namespace BuildAnalysis

abbrev Demand (α : Type) := Engine.Demand analysisSpace α

structure Findings where
  /-- To be delivered once the evaluation ends. -/
  events : List Event := []
  /-- The causes that will make the evaluation fail. -/
  causes : Causes := ∅
  /-- The packages loaded so far, if they are recorded. -/
  packages : Option (SortedSet PackagePath) := none
  /-- The toolchains resolved for the target, in any execution group. -/
  toolchains : SortedSet Label := ∅

/-- Why an evaluation fails. It decides what is still to be reported. -/
inductive Abort where
  /-- A requested value failed; `reported` tells whether that failure was reported where it arose. -/
  | dependency (failure : TargetFailure) (reported : Bool)
  /-- The target itself fails. -/
  | creation (failure : TargetFailure)
  /-- An aspect applied to a dependency failed and has reported it. -/
  | aspect (failure : TargetFailure)
  /-- The resolution of toolchains failed. -/
  | toolchains (failure : Failure)
  /-- Causes were collected and reported on the way. -/
  | collected (failure : TargetFailure)

abbrev Evaluation (α : Type) := ExceptT Abort (StateT Findings Demand) α

namespace Findings

def report (f : Findings) (e : Event) : Findings := { f with events := f.events ++ [e] }

def addCause (f : Findings) (c : Cause) : Findings := { f with causes := f.causes.add c }

def addPackage (f : Findings) (p : PackagePath) : Findings :=
  { f with packages := f.packages.map fun ps => ps.insert p }

def addPackages (f : Findings) (ps : Option (SortedSet PackagePath)) : Findings :=
  { f with packages := f.packages.map fun known => ps.elim known known.union }

end Findings

namespace Evaluation

variable {α β γ δ : Type}

def request (d : Demand α) : Evaluation α := ExceptT.lift (StateT.lift d)

def abort (a : Abort) : Evaluation α := throw a

def ofExcept (r : Except Abort α) : Evaluation α := ExceptT.mk (pure r)

def findings : Evaluation Findings := ExceptT.lift get

def note (f : Findings → Findings) : Evaluation Unit := ExceptT.lift (modify f)

def runFrom (e : Evaluation α) (f : Findings) : Demand (Except Abort α × Findings) :=
  StateT.run (ExceptT.run e) f

end Evaluation

namespace AnalysisKey

def requestPackages (ps : List PackagePath) : Demand (List (PackagePath × Except Failure Package)) :=
  Engine.Demand.values (S := analysisSpace) package (fun p r => (p, r)) ps

def requestConfigurations (ks : List ConfigurationKey) :
    Demand (List (ConfigurationKey × Configuration)) :=
  Engine.Demand.values (S := analysisSpace) configuration (fun k c => (k, c)) ks

def requestPackagesAndConfigurations (ps : List PackagePath) (ks : List ConfigurationKey) :
    Demand (List (PackagePath × Except Failure Package) ×
      List (ConfigurationKey × Configuration)) :=
  Engine.Demand.values₂ (S := analysisSpace) package (fun p r => (p, r)) configuration
    (fun k c => (k, c)) ps ks

def requestFragments (ls : List Label) :
    Demand (List (Label × Except Failure (SortedSet String))) :=
  Engine.Demand.values (S := analysisSpace) fragments (fun l r => (l, r)) ls

def requestToolchains (ks : List ToolchainKey) :
    Demand (List (ToolchainKey × Except Failure ToolchainContext)) :=
  Engine.Demand.values (S := analysisSpace) toolchains (fun k r => (k, r)) ks

def requestTargetsAndPackages (ks : List TargetKey) (ps : List PackagePath) :
    Demand (List (Except Failure TargetValue) × List (Except Failure Package)) :=
  Engine.Demand.values₂ (S := analysisSpace) target (fun _ r => r) package (fun _ r => r) ks ps

def requestAspects (ks : List AspectKey) : Demand (List (Except Failure AspectValue)) :=
  Engine.Demand.values (S := analysisSpace) aspect (fun _ r => r) ks

end AnalysisKey

namespace Package

/-- The target of a label in what loading its package gave. -/
def lookup (loaded : Except Failure Package) (name : TargetName) : Except Failure Target :=
  match loaded with
  | .error e => .error e
  | .ok p => (p.target name).mapError PackageError.toFailure

/-- The package of a path among those that were requested. -/
def among (loaded : List (PackagePath × Except Failure Package)) (label : Label) :
    Except Failure Package :=
  (Listing.find? label.package loaded).getD
    (.error (.internal s!"package of `{label}` was not requested"))

end Package
end BuildAnalysis
