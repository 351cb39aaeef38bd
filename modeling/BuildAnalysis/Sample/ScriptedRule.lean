import BuildAnalysis.Analysis.Requests
import BuildAnalysis.Text.Numeral

/-!
# Scripted rules and aspects

Rules whose targets say by their attributes what their evaluation does, and which provide a
description of everything the evaluation saw. Aspects of the same kind.
-/
namespace BuildAnalysis

def optionOrNone (c : Option Configuration) (fragment option : String) : String :=
  (c.bind fun c => c.options.option? fragment option).getD "none"

namespace ScriptedRule

def attributes : List RuleAttr :=
  let text (name : String) : RuleAttr := .ofDecl (.value name (.text ""))
  [.ofDecl (.dep "deps"), text "value", text "fail", text "warn", text "lookup", text "raise",
    .ofDecl (.value "alias_to" .none), .ofDecl (.value "request" .none)]

/-- The changes that targets may apply while they are evaluated, by number; entries that could not
be made do nothing. -/
abbrev Edits := List (Option (List (Engine.Change analysisSpace)))

def text? (c : RuleContext) (name : String) : Build (Option String) := do
  let v ← Build.ofExcept (c.attr name)
  return v.asText?.filter fun s => s ≠ ""

/-- Requests the configuration whose only option is the given text. -/
def requestLookup (value : String) : Build Unit := do
  let _ ← Build.configuration ⟨({} : BuildOptions).setOption "lookup" "value" value⟩
  return ()

/-- Applies the edit that an attribute names by its number. -/
def applyEdit (edits : Edits) (c : RuleContext) : Build Unit := do
  if (c.target.rule?.bind fun r => r.attribute? "edit").isNone then return ()
  match ← text? c "edit" with
  | none => return ()
  | some s =>
    match Text.readNat (UInt64.size - 1) s with
    | .error _ => return ()
    | .ok n =>
      match edits[n]? with
      | some (some changes) =>
        Build.request (Engine.Demand.lift (.commit changes (.done ())))
      | _ => return ()

/-- The failure that an attribute describes as `TAG:message`. -/
def described (s : String) : Failure :=
  let cs := s.toList
  match cs.dropWhile (· != ':') with
  | [] => (Failure.new .analysis s).within "while building"
  | _ :: message =>
    let tag := (Tag.ofName? (String.ofList (cs.takeWhile (· != ':')))).getD .analysis
    (Failure.new tag (String.ofList message)).within "while building"

def edgeName : DependencyKind → String
  | .attribute attr => s!"attr {attr}"
  | .aspectAttribute aspect attr => s!"{aspect} {attr}"
  | .toolchain group => s!"toolchain {group}"
  | .condition => "condition"

def describeGroup (c : RuleContext) (e : String × ExecGroup) : String :=
  let loaded := c.toolchainsOf e.1
  let orNone (l : Option Label) : String := l.elim "none" toString
  let constraints := e.2.constraints.members.map fun l => s!" constraint {l}"
  let types := e.2.toolchainTypes.members.map fun t =>
    s!" {t}=" ++ orNone ((loaded.bind fun r => r.get? t).map AnalyzedTarget.label)
  e.1 ++ " exec " ++ orNone (loaded.bind LoadedToolchains.executionPlatform) ++ " target " ++
    orNone (loaded.bind LoadedToolchains.targetPlatform) ++ String.join (constraints ++ types)

/-- The providers of a dependency that aspects like to add. -/
def infos (t : AnalyzedTarget) : List Provided :=
  (t.providers.entries.entries.filter fun e => e.1.startsWith "aspect_").map Prod.snd

/-- The description of everything that the evaluation saw. -/
def describe (c : RuleContext) (value : String) : Providers :=
  let deps := c.dependencies.entries
  let types := ((c.groups.get? ExecGroup.defaultName).map fun g => g.toolchainTypes.members).getD []
  let toolchain := (types.head?.bind c.toolchain?).map AnalyzedTarget.label
  let edge (e : Dependency × AnalyzedTarget) : String :=
    edgeName e.1.kind ++ ": " ++ toString e.1.key ++ " split " ++ e.1.splitKey.getD "none"
  .ofList [
    ("summary", .text s!"{c.label} {deps.length} {deps.isEmpty}"),
    ("edges", .list (deps.map fun e => .text (edge e))),
    ("deps", .labels ((c.deps "deps").map AnalyzedTarget.label)),
    ("targets", .labels (deps.map fun e => e.2.target.label)),
    ("modes", .list (deps.map fun e => .text (optionOrNone e.2.configuration "cpp" "mode"))),
    ("infos", .list (deps.flatMap fun e => infos e.2)),
    ("groups", .list (c.groups.groups.map fun g => .text (describeGroup c g))),
    ("toolchain", .text (toolchain.elim "none" toString)),
    ("mode", .text (optionOrNone c.configuration "cpp" "mode")),
    ("value", .text value)]

/-- Runs what the attributes of the target say. -/
def implementation (edits : Edits) : RuleImplementation := fun c => do
  if let some m ← text? c "warn" then c.reportWarning m
  if let some v ← text? c "lookup" then requestLookup v
  if let some l := (← Build.ofExcept (c.attr "request")).asLabel? then
    let key : TargetKey := { label := l, configuration := c.configuration.map Configuration.key }
    let _ ← Build.ofExcept (← Build.target key)
    pure ()
  applyEdit edits c
  if let some m ← text? c "fail" then c.reportError m
  if let some s ← text? c "raise" then Build.fail (described s)
  match (← Build.ofExcept (c.attr "alias_to")).asLabel? with
  | some l => return .standsFor l
  | none => return .providers (describe c ((← text? c "value").getD ""))

end ScriptedRule

namespace ScriptedAspect

inductive Kind where
  /-- Provides a description. -/
  | plain
  /-- Provides something that scripted rules provide. -/
  | conflict
  | empty
  | raise
  /-- Reports an error before it provides a description. -/
  | report
  /-- Requests a configuration before it provides a description. -/
  | request
  deriving DecidableEq

namespace Kind

/-- The names of the kinds that have one; every other name means the plain kind. -/
def names : List (String × Kind) :=
  [("conflict", conflict), ("empty", empty), ("raise", raise), ("report", report),
    ("request", request)]

def ofName (s : String) : Kind := (Listing.find? s names).getD plain

end Kind

/-- The description of the base target and of what the tool attribute leads to. -/
def describe (c : AspectContext) : Provided :=
  .text (s!"{c.aspect.id} on {c.base.label} with " ++
    ",".intercalate ((c.deps "_tool").map fun t => toString t.label))

/-- The providers of an aspect that describes its base target. -/
def described (c : AspectContext) : Providers :=
  (∅ : Providers).put ("aspect_" ++ c.aspect.id) (describe c)

def implementation : Kind → AspectImplementation
  | .plain, c => pure (described c)
  | .conflict, _ => pure ((∅ : Providers).put "mode" (.text "aspect"))
  | .empty, _ => pure ∅
  | .raise, c =>
    Build.fail ((Failure.new .transition s!"{c.aspect.id} raised").within s!"on {c.base.label}")
  | .report, c => do
    c.reportError s!"{c.aspect.id} dislikes {c.base.label}"
    return described c
  | .request, c => do
    ScriptedRule.requestLookup c.aspect.id
    return described c

end ScriptedAspect
end BuildAnalysis
