import BuildAnalysis.Failure.Basic

/-!
# Transitions

A transition turns the options of a target into those its dependency is analyzed in: one set, one
set per value of a split, or none at all. Every transition has an id; references to transitions are
compared by it alone.
-/
namespace BuildAnalysis

inductive Transition where
  /-- Keeps the options. -/
  | keep
  /-- Drops the configuration. -/
  | drop
  /-- Removes the feature flags, so that toolchains do not depend on them. -/
  | dropFlags
  /-- Sets one option. -/
  | patch (fragment option value : String)
  /-- Sets one option to each of several values. -/
  | split (fragment option : String) (values : List String)
  /-- Switches to an execution platform. -/
  | execution (platform : Label)
  /-- Refuses all options. -/
  | failing (id : String) (tag : Tag) (message : String)
  deriving DecidableEq

inductive Transition.Outcome where
  | noConfiguration
  | patched (options : BuildOptions)
  /-- By split key, in order of declaration. -/
  | split (options : List (String × BuildOptions))
  deriving DecidableEq

namespace Transition

def id : Transition → String
  | keep => "none"
  | drop => "null"
  | dropFlags => "toolchain_trimming"
  | patch fragment option value => s!"patch({fragment}.{option}={value})"
  | split fragment option values =>
    "split(" ++ fragment ++ "." ++ option ++ "=" ++ ",".intercalate values ++ ")"
  | execution platform => s!"exec({platform})"
  | failing id _ _ => id

/-- Equality of references to transitions. -/
def same (s t : Transition) : Bool := s.id == t.id

/-- Whether the transition comes with this library and so accepts all options. -/
def isBuiltin : Transition → Bool
  | failing _ _ _ => false
  | _ => true

def apply (t : Transition) (o : BuildOptions) : Except Failure Outcome :=
  match t with
  | keep => .ok (.patched o)
  | drop => .ok .noConfiguration
  | dropFlags => .ok (.patched o.clearFlags)
  | patch fragment option value => .ok (.patched (o.setOption fragment option value))
  | split fragment option values =>
    .ok (.split (Listing.ofEntries (values.map fun v => (v, o.setOption fragment option v))))
  | execution platform => .ok (.patched (o.clearFlags.setTargetPlatform (some platform)))
  | failing _ tag message => .error (.new tag message)

end Transition

structure Transition.Walk where
  options : BuildOptions
  outcomes : List (Except Failure Transition.Outcome)

namespace Transition

/-- The options after an outcome: patched ones, or those of the last split key. -/
def Outcome.next (current : BuildOptions) : Except Failure Outcome → BuildOptions
  | .ok (.patched o) => o
  | .ok (.split os) => (os.getLast?.map Prod.snd).getD current
  | _ => current

/-- Applies transitions one after the other, each to the options that the one before led to. -/
def walk (o : BuildOptions) (ts : List Transition) : Walk :=
  ts.foldl (fun w t =>
    let outcome := t.apply w.options
    ⟨Outcome.next w.options outcome, w.outcomes ++ [outcome]⟩) ⟨o, []⟩

end Transition
end BuildAnalysis
