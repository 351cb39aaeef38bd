import BuildAnalysis.Analysis.Space

/-!
# What loading found

Loading supplies the injected values of an analysis: packages, packages that cannot be loaded, and
the registry of toolchains. It may also name targets that have to be computed anew.
-/
namespace BuildAnalysis

structure Loaded where
  packages : List Package := []
  /-- The packages that cannot be loaded. -/
  missing : List (PackagePath × Failure) := []
  /-- The platforms and toolchains, if they were loaded anew. -/
  registry : Option ToolchainRegistry := none
  /-- The targets whose values are out of date. -/
  outdated : List TargetKey := []

namespace Loaded

def setPackage (p : PackagePath) (r : Except Failure Package) : Engine.Change analysisSpace :=
  .inject (S := analysisSpace) (.package p) r

def setRegistry (r : ToolchainRegistry) : Engine.Change analysisSpace :=
  .inject (S := analysisSpace) .registry r

def outdate (k : TargetKey) : Engine.Change analysisSpace :=
  .invalidate (S := analysisSpace) (.target k)

def changes (l : Loaded) : List (Engine.Change analysisSpace) :=
  l.packages.map (fun p => setPackage p.label (.ok p)) ++
    l.missing.map (fun m => setPackage m.1 (.error m.2)) ++
    (l.registry.map setRegistry).toList ++ l.outdated.map outdate

end Loaded
end BuildAnalysis
