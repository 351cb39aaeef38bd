import BuildAnalysis.Analysis.Batch

/-!
# Conditions

The conditions that the attributes of a target consult are targets too. They are analyzed in the
configuration of the target itself, aliases included, and must provide how they turned out.
-/
namespace BuildAnalysis

structure Conditions where
  entries : List (Label × ConditionMatch) := []

namespace Conditions

instance : EmptyCollection Conditions := ⟨{}⟩

def isEmpty (c : Conditions) : Bool := c.entries.isEmpty

def get? (c : Conditions) (label : Label) : Option ConditionMatch :=
  Listing.find? label c.entries

def context (c : Conditions) (configuration : Configuration) : ConditionContext where
  configuration := configuration
  matching label :=
    match c.get? label with
    | some m => .ok (if m.holds then some m.settings else none)
    | none => .error (.internal s!"`select()` key `{label}` was not resolved")

def configure (c : Conditions) (configuration : Option Configuration) (e : AttrExpr) :
    Except Failure AttrValue :=
  match configuration with
  | some cfg => e.configure (c.context cfg)
  | none =>
    match e.unconfigured? with
    | some v => .ok v
    | none =>
      .error (.new .configCondition "`select()` cannot be resolved without a configuration")

def dependency (configuration : Configuration) (key : Label) : Dependency :=
  { kind := .condition, label := key, configuration := some configuration }

def ofAnalyzed (owner : Label) (configuration : ConfigurationKey) :
    List (Label × AnalyzedTarget) → Except Abort (List (Label × ConditionMatch))
  | [] => .ok []
  | (key, t) :: rest =>
    match t.providers.condition? with
    | none =>
      .error (.dependency
        (.ofTarget owner (some configuration) .configCondition
          s!"{key} is not a valid select() condition for {owner}.") false)
    | some m =>
      match ofAnalyzed owner configuration rest with
      | .error a => .error a
      | .ok ms => .ok ((key, m) :: ms)

/-- What a failure among the conditions of a target is turned into. -/
def relabel (owner : Label) : Abort → Abort
  | .dependency f reported =>
    .dependency (f.withMessage s!"errors encountered resolving select() keys for {owner}") reported
  | a => a

def ofTarget (target : Target) (configuration : Option Configuration) : Evaluation Conditions := do
  match configuration, target.selectKeys with
  | some cfg, key :: keys =>
    let deps := (key :: keys).map (dependency cfg)
    let values ← tryCatch (Batch.resolve target.label (some cfg.key) deps) fun a =>
      throw (relabel target.label a)
    let entries ← Evaluation.ofExcept
      (ofAnalyzed target.label cfg.key ((key :: keys).zip values))
    return ⟨entries⟩
  | _, _ => return ∅

end Conditions
end BuildAnalysis
