import BuildAnalysis.Target.Rule

/-!
# Diagnostic forms of declarations

The one-line forms of attribute expressions, transitions and aspects, as they occur in the
diagnostic form of whatever holds them.
-/
namespace BuildAnalysis

def flagText (b : Bool) : String := if b then "true" else "false"

def textSet (s : SortedSet String) : String :=
  "\x7b" ++ ", ".intercalate (s.members.map Text.quote) ++ "\x7d"

namespace AttrExpr

mutual

def debugText : AttrExpr → String
  | none => "None"
  | bool b => Text.applied "Bool" [flagText b]
  | text s => Text.applied "String" [Text.quote s]
  | label l => Text.applied "Label" [l.debugText]
  | list items => Text.applied "List" [Text.bracketed (debugTexts items)]
  | dict entries => Text.applied "Dict" [Text.bracketed (debugPairs entries)]
  | select branches fallback =>
    Text.applied "Selector" [Text.record "CoercedSelector"
      [("entries", Text.bracketed (debugBranches branches)), ("default", debugFallback fallback)]]
  | concat items => Text.applied "Concat" [Text.bracketed (debugTexts items)]

def debugTexts : List AttrExpr → List String
  | [] => []
  | x :: xs => debugText x :: debugTexts xs

def debugPairs : List (AttrExpr × AttrExpr) → List String
  | [] => []
  | (k, v) :: es => Text.applied "" [debugText k, debugText v] :: debugPairs es

def debugBranches : List (Label × AttrExpr) → List String
  | [] => []
  | (k, v) :: bs => Text.applied "" [k.debugText, debugText v] :: debugBranches bs

def debugFallback : Option AttrExpr → String
  | Option.none => Text.optional Option.none
  | some x => Text.optional (some (debugText x))

end

end AttrExpr

namespace Transition

def debugText (t : Transition) : String :=
  match t with
  | keep => "NoTransition"
  | drop => "NullTransition"
  | dropFlags => "ToolchainTrimmingTransition"
  | patch fragment option value =>
    Text.record "PatchTransition"
      [("id", Text.quote t.id), ("fragment", Text.quote fragment), ("option", Text.quote option),
        ("value", Text.quote value)]
  | split fragment option values =>
    Text.record "SplitTransition"
      [("id", Text.quote t.id), ("fragment", Text.quote fragment), ("option", Text.quote option),
        ("values", Text.bracketed (values.map Text.quote))]
  | execution platform =>
    Text.record "ExecTransition"
      [("id", Text.quote t.id), ("exec_platform", platform.debugText)]
  | failing id tag message =>
    Text.record "FailTransition"
      [("id", Text.quote id), ("tag", tag.name), ("message", Text.quote message)]

end Transition

namespace EdgeTransition

def debugText : EdgeTransition → String
  | target => "Target"
  | execution group =>
    Text.record "Exec" [("exec_group", Text.optional (group.map Text.quote))]
  | none => "Null"
  | custom t => Text.applied "Custom" [Text.applied "TransitionRef" [t.debugText]]

end EdgeTransition

namespace AttrDecl

def debugText (a : AttrDecl) : String :=
  Text.record "Attribute"
    [("name", Text.quote a.name),
      ("kind", match a.kind with
        | .dep => "Dep"
        | .value => "Value"),
      ("default", a.default.debugText), ("transition", a.transition.debugText), ("aspects", "[]"),
      ("configurable", flagText a.configurable)]

end AttrDecl

namespace Aspect

def debugText (a : Aspect) : String :=
  Text.record "AspectClass"
    [("id", Text.applied "AspectId" [Text.quote a.id]),
      ("attributes", Text.bracketed (a.attributes.map AttrDecl.debugText)),
      ("required_fragments", textSet a.requiredFragments)]

end Aspect
end BuildAnalysis
