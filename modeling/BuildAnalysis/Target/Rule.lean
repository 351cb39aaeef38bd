import BuildAnalysis.Attribute.Expr
import BuildAnalysis.Configuration.Transition
import BuildAnalysis.Target.ExecGroup

/-!
# Rules and aspects

A rule declares the attributes of its targets and what they need from toolchain resolution. An
aspect declares attributes of its own that are added where it is applied. Attribute names are
distinct within a rule, and every rule has the attribute for execution constraints.
-/
namespace BuildAnalysis

inductive AttrKind where
  /-- Labels in the value are dependencies. -/
  | dep
  /-- Plain data. -/
  | value
  deriving DecidableEq

/-- How the configuration of a dependency follows from that of the target that declares it. -/
inductive EdgeTransition where
  /-- The same configuration. -/
  | target
  /-- That of the execution platform of a group, of the default group if none is named. -/
  | execution (group : Option String)
  /-- No configuration. -/
  | none
  | custom (transition : Transition)
  deriving DecidableEq

structure AttrDecl where
  name : String
  kind : AttrKind
  default : AttrExpr
  transition : EdgeTransition := .target
  /-- Whether the value may choose by condition. -/
  configurable : Bool := true
  deriving DecidableEq

structure Aspect where
  id : String
  attributes : List AttrDecl
  requiredFragments : SortedSet String := ∅
  deriving DecidableEq

structure RuleAttr extends AttrDecl where
  aspects : List Aspect := []
  deriving DecidableEq

structure Rule where
  id : String
  attributes : List RuleAttr
  distinctNames : (attributes.map fun a => a.name).Nodup
  toolchainTypes : SortedSet Label := ∅
  constraints : SortedSet Label := ∅
  execGroups : List (String × ExecGroup) := []
  usesToolchainResolution : Bool := true
  /-- Whether toolchains are analyzed for the execution platform of their group. -/
  usesToolchainTransition : Bool := false
  /-- Whether targets are analyzed in a configuration. -/
  configurable : Bool := true
  requiredFragments : SortedSet String := ∅
  deriving DecidableEq

namespace EdgeTransition

/-- Equality up to the ids of transitions. -/
def same : EdgeTransition → EdgeTransition → Bool
  | custom s, custom t => s.same t
  | s, t => s == t

end EdgeTransition

namespace AttrDecl

def dep (name : String) : AttrDecl := { name := name, kind := .dep, default := .list [] }

def value (name : String) (default : AttrExpr) : AttrDecl :=
  { name := name, kind := .value, default := default }

def nonconfigurable (a : AttrDecl) : AttrDecl := { a with configurable := false }

/-- Equality up to the ids of transitions. -/
def same (a b : AttrDecl) : Bool :=
  a.name == b.name && a.kind == b.kind && a.default == b.default &&
    a.transition.same b.transition && a.configurable == b.configurable

end AttrDecl

def agree {α : Type} (same : α → α → Bool) : List α → List α → Bool
  | [], [] => true
  | x :: xs, y :: ys => same x y && agree same xs ys
  | _, _ => false

namespace Aspect

/-- Equality up to the ids of transitions. -/
def same (a b : Aspect) : Bool :=
  a.id == b.id && agree AttrDecl.same a.attributes b.attributes &&
    a.requiredFragments == b.requiredFragments

end Aspect

namespace RuleAttr

/-- An attribute to whose dependencies no aspect is applied. -/
def ofDecl (a : AttrDecl) : RuleAttr := { a with aspects := [] }

/-- Equality up to the ids of transitions. -/
def same (a b : RuleAttr) : Bool :=
  a.toAttrDecl.same b.toAttrDecl && agree Aspect.same a.aspects b.aspects

end RuleAttr

namespace Rule

/-- The attribute that adds execution constraints to those of the rule. -/
def constraintsAttr : String := "exec_compatible_with"

def constraintsDecl : RuleAttr :=
  .ofDecl (AttrDecl.value constraintsAttr (.list [])).nonconfigurable

/-- A rule with the given attributes after the one for execution constraints. -/
def declare (id : String) (attributes : List RuleAttr) : Except Failure Rule :=
  let all := constraintsDecl :: attributes
  if h : (all.map fun a => a.name).Nodup then
    .ok { id := id, attributes := all, distinctNames := h }
  else
    let repeated := (Listing.firstRepeated? [] (all.map fun a => a.name)).getD ""
    .error (.new .input s!"Rule `{id}` declares attribute `{repeated}` twice")

def attribute? (r : Rule) (name : String) : Option RuleAttr :=
  r.attributes.find? fun a => a.name == name

/-- Equality up to the ids of transitions and the order of execution groups. -/
def same (r s : Rule) : Bool :=
  r.id == s.id && agree RuleAttr.same r.attributes s.attributes &&
    r.toolchainTypes == s.toolchainTypes && r.constraints == s.constraints &&
    Listing.sameEntries (· == ·) r.execGroups s.execGroups &&
    r.usesToolchainResolution == s.usesToolchainResolution &&
    r.usesToolchainTransition == s.usesToolchainTransition &&
    r.configurable == s.configurable && r.requiredFragments == s.requiredFragments

end Rule
end BuildAnalysis
