import BuildAnalysis.Target.Rule

/-!
# Targets

A target is a source file or an instance of a rule. Attributes that are not set take the default of
the rule; only attributes of the rule can be set, and conditions stay out of those that must not
depend on the configuration.
-/
namespace BuildAnalysis

inductive TargetError where
  | unknownAttribute (label : Label) (attr : String)
  | selectNotAllowed (label : Label) (attr : String)
  | notLabelList (label : Label) (attr : String)
  deriving DecidableEq

namespace TargetError

def message : TargetError → String
  | unknownAttribute label attr => s!"Target `{label}` sets unknown attribute `{attr}`"
  | selectNotAllowed label attr =>
    s!"Attribute `{attr}` of `{label}` is not configurable, `select()` is not allowed"
  | notLabelList label attr => s!"Attribute `{attr}` of `{label}` must be a list of labels"

def toFailure (e : TargetError) : Failure := .new .input e.message

end TargetError

inductive TargetKind where
  | rule (r : Rule)
  /-- A file of the package; never configured. -/
  | sourceFile
  deriving DecidableEq

structure Target where
  label : Label
  kind : TargetKind
  /-- The attributes that are set. -/
  values : List (String × AttrExpr)
  deriving DecidableEq

namespace Target

def sourceFile (label : Label) : Target := ⟨label, .sourceFile, []⟩

def checkValue (label : Label) (rule : Rule) (e : String × AttrExpr) : Except TargetError Unit :=
  match rule.attribute? e.1 with
  | none => .error (.unknownAttribute label e.1)
  | some a =>
    if !a.configurable && !(e.2.selectKeys []).isEmpty then
      .error (.selectNotAllowed label e.1)
    else .ok ()

/-- A target of a rule; of an attribute set twice the later value counts. -/
def ofRule (label : Label) (rule : Rule) (values : List (String × AttrExpr)) :
    Except TargetError Target :=
  match values.forM (checkValue label rule) with
  | .error e => .error e
  | .ok () => .ok ⟨label, .rule rule, Listing.ofEntries values⟩

def rule? (t : Target) : Option Rule :=
  match t.kind with
  | .rule r => some r
  | .sourceFile => none

/-- Whether the target is analyzed in a configuration. -/
def isConfigurable (t : Target) : Bool :=
  match t.kind with
  | .rule r => r.configurable
  | .sourceFile => false

def declared (t : Target) : List RuleAttr :=
  match t.kind with
  | .rule r => r.attributes
  | .sourceFile => []

def attr? (t : Target) (name : String) : Option AttrExpr :=
  match Listing.find? name t.values with
  | some v => some v
  | none => (t.rule?.bind fun r => r.attribute? name).map fun a => a.default

def attributes (t : Target) : List (RuleAttr × AttrExpr) :=
  t.declared.map fun a => (a, (Listing.find? a.name t.values).getD a.default)

/-- The conditions that the attributes consult, each once and in order of first use. -/
def selectKeys (t : Target) : List Label :=
  t.attributes.foldl (fun keys e => e.2.selectKeys keys) []

/-- The labels of dependency attributes in any branch, each once and in order of first use. -/
def unconfiguredDeps (t : Target) : List Label :=
  t.attributes.foldl (fun ls e => if e.1.kind = .dep then e.2.allLabels ls else ls) []

/-- The labels that a list of values consists of. -/
def labelItems? : List AttrValue → Option (List Label)
  | [] => some []
  | .label l :: vs => (labelItems? vs).map (l :: ·)
  | _ :: _ => none

def constraints (t : Target) : Except TargetError (List Label) :=
  match t.attr? Rule.constraintsAttr with
  | none => .ok []
  | some e =>
    match e.unconfigured? with
    | some (.list items) =>
      match labelItems? items with
      | some ls => .ok ls
      | none => .error (.notLabelList t.label Rule.constraintsAttr)
    | _ => .error (.notLabelList t.label Rule.constraintsAttr)

def requiredFragments (t : Target) : SortedSet String :=
  match t.kind with
  | .rule r => r.requiredFragments
  | .sourceFile => ∅

/-- Equality up to the ids of transitions and the order of the attributes set. -/
def same (s t : Target) : Bool :=
  s.label == t.label &&
    (match s.kind, t.kind with
      | .rule r, .rule q => r.same q
      | .sourceFile, .sourceFile => true
      | _, _ => false) &&
    Listing.sameEntries (· == ·) s.values t.values

end Target
end BuildAnalysis
