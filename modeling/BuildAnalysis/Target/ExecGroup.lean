import BuildAnalysis.Collection.Listing
import BuildAnalysis.Collection.SortedMap
import BuildAnalysis.Label.Basic

/-!
# Execution groups

An execution group names the toolchain types and execution constraints of a set of actions. Every
target has a default group, built from the rule itself; declared groups follow it and may inherit
its requirements.
-/
namespace BuildAnalysis

structure ExecGroup where
  toolchainTypes : SortedSet Label := ∅
  constraints : SortedSet Label := ∅
  /-- Whether the requirements of the default group are added. -/
  inherits : Bool := false
  deriving DecidableEq

namespace ExecGroup

/-- The name of the group built from the requirements of the rule itself. -/
def defaultName : String := "default-exec-group"

/-- The group with what it inherits. -/
def resolve (g default : ExecGroup) : ExecGroup :=
  if g.inherits then
    ⟨g.toolchainTypes.union default.toolchainTypes, g.constraints.union default.constraints, false⟩
  else g

end ExecGroup

/-- The execution groups of a target by name, the default group first. -/
structure ExecGroups where
  groups : List (String × ExecGroup)
  deriving DecidableEq

namespace ExecGroups

/-- The default group followed by the declared ones; a declared group of the default group's name
is ignored. -/
def ofDeclared (default : ExecGroup) (declared : List (String × ExecGroup)) : ExecGroups :=
  let inherited := (declared.filter fun e => e.1 != ExecGroup.defaultName).map fun e =>
    (e.1, e.2.resolve default)
  ⟨Listing.ofEntries ((ExecGroup.defaultName, default) :: inherited)⟩

def get? (gs : ExecGroups) (name : String) : Option ExecGroup := Listing.find? name gs.groups

def default? (gs : ExecGroups) : Option ExecGroup := gs.get? ExecGroup.defaultName

def size (gs : ExecGroups) : Nat := gs.groups.length

def isEmpty (gs : ExecGroups) : Bool := gs.groups.isEmpty

end ExecGroups
end BuildAnalysis
