import BuildAnalysis.Label.Basic

/-!
# Label patterns

A pattern selects one label, all targets of a package (`//foo:all`) or all targets at or below a
package (`//foo/...`).
-/
namespace BuildAnalysis

inductive Pattern where
  | exact (label : Label)
  | package (path : PackagePath)
  | recursive (path : PackagePath)
  deriving DecidableEq

namespace Pattern

instance : ToString Pattern where
  toString
    | exact l => toString l
    | package p => s!"{p}:all"
    | recursive p => s!"{p}/..."

def debugText : Pattern → String
  | exact l => Text.applied "Exact" [l.debugText]
  | package p => Text.applied "Package" [p.debugText]
  | recursive p => Text.applied "Recursive" [p.debugText]

/-- Reads a pattern. `//...` is everything; otherwise the ending decides. -/
def parse (text : String) : Except LabelError Pattern :=
  if text = "//..." then .ok (.recursive .root)
  else
    match beforeEnding? "/...".toList text.toList with
    | some pkg => (PackagePath.parse (String.ofList pkg)).map .recursive
    | none =>
      match beforeEnding? ":all".toList text.toList with
      | some pkg => (PackagePath.parse (String.ofList pkg)).map .package
      | none => (Label.parse text).map .exact

def selects : Pattern → Label → Bool
  | exact l, label => l == label
  | package p, label => label.package == p
  | recursive p, label => label.package.isBelow p

end Pattern
end BuildAnalysis
