import BuildAnalysis.Sample.ScriptedRule

/-!
# A sample workspace

A small workspace to analyze: two execution platforms, a toolchain that needs one of them, and rules
whose targets describe what their evaluation saw of dependencies and toolchains.
-/
namespace BuildAnalysis.SampleWorkspace

def attributes : List RuleAttr :=
  let text (name : String) : RuleAttr := .ofDecl (.value name (.text ""))
  [.ofDecl (.dep "deps"), text "value", text "fail", text "warn", text "lookup"]

def plainRule : Except Failure Rule := Rule.declare "test_rule" attributes

def toolchainRule : Except Failure Rule :=
  BuiltinRules.withoutToolchains "cc_toolchain" attributes

def rules : Except Failure (List Rule) :=
  sequence [BuiltinRules.aliasRule, BuiltinRules.settingRule, plainRule, toolchainRule]

/-- A platform `arm`, a platform `x86`, and a toolchain that runs on `x86` only and serves the
target platform `linux`. -/
def registry : Except LabelError ToolchainRegistry := do
  let armCpu ← Label.parse "//cpu:arm"
  let x86Cpu ← Label.parse "//cpu:x86"
  let linuxOs ← Label.parse "//os:linux"
  let arm ← Label.parse "//platforms:arm"
  let x86 ← Label.parse "//platforms:x86"
  let linux ← Label.parse "//platforms:linux"
  let toolchain : Toolchain :=
    { type := ← Label.parse "//cpp:toolchain_type"
      implementation := ← Label.parse "//cpp:gcc"
      execution := .ofList [x86Cpu]
      target := .ofList [linuxOs] }
  let platforms := (({} : ToolchainRegistry).addExecutionPlatform arm [armCpu]).addExecutionPlatform
    x86 [x86Cpu]
  return ((platforms.addTargetPlatform linux [linuxOs]).addTargetPlatform x86 [x86Cpu]).addToolchain
    toolchain

def linuxOptions : Except LabelError BuildOptions :=
  (Label.parse "//platforms:linux").map fun l => ({} : BuildOptions).setTargetPlatform (some l)

def platformOrNone (c : Option Configuration) : String :=
  (c.bind fun c => c.options.platform.targetPlatform).elim "none" toString

def attributeDeps (c : RuleContext) : List AnalyzedTarget :=
  (c.dependencies.entries.filter fun e =>
    match e.1.kind with
    | .attribute _ => true
    | _ => false).map Prod.snd

def toolchainDeps (c : RuleContext) : List AnalyzedTarget :=
  (c.dependencies.entries.filter fun e =>
    match e.1.kind with
    | .toolchain _ => true
    | _ => false).map Prod.snd

def describe (c : RuleContext) (value : String) : Providers :=
  let deps := attributeDeps c
  let platform :=
    (c.toolchainsOf ExecGroup.defaultName).bind LoadedToolchains.executionPlatform
  .ofList [
    ("deps", .labels (deps.map AnalyzedTarget.label)),
    ("dep_targets", .labels (deps.map fun t => t.target.label)),
    ("dep_modes", .list (deps.map fun t => .text (optionOrNone t.configuration "cpp" "mode"))),
    ("dep_platforms", .list (deps.map fun t => .text (platformOrNone t.configuration))),
    ("aspect_infos", .list (deps.filterMap fun t => t.providers.get? "aspect_info")),
    ("toolchains", .labels ((toolchainDeps c).map AnalyzedTarget.label)),
    ("exec_platform", .text (platform.elim "none" toString)),
    ("mode", .text (optionOrNone c.configuration "cpp" "mode")),
    ("value", .text value)]

/-- Reports what the attributes ask for and describes the rest. -/
def implementation : RuleImplementation := fun c => do
  if let some m ← ScriptedRule.text? c "warn" then c.reportWarning m
  if let some v ← ScriptedRule.text? c "lookup" then ScriptedRule.requestLookup v
  if let some m ← ScriptedRule.text? c "fail" then c.reportError m
  let value ← Build.ofExcept (c.attr "value")
  return .providers (describe c (value.asText?.getD ""))

def describingAspect : AspectImplementation := fun c =>
  pure ((∅ : Providers).put "aspect_info" (ScriptedAspect.describe c))

def conflictingAspect : AspectImplementation := ScriptedAspect.implementation .conflict

/-- The rules of a list of targets that no implementation is registered for get the one of the
workspace. -/
def complete (i : Implementations) (targets : List Target) : Implementations :=
  targets.foldl (fun i t =>
    match t.rule? with
    | none => i
    | some r => if (i.rule? r.id).isSome then i else i.addRule r.id implementation) i

/-- The services for the analysis of a list of targets, with aspects of given ids. -/
def services (storePackages unblock : Bool) (aspects : List (String × AspectImplementation))
    (targets : List Target) : Services where
  settings := { cpuPermits := some 2, storeTransitivePackages := storePackages
                unblockWhileFetching := unblock }
  implementations := complete (BuiltinRules.implementations.addAspects aspects) targets

def missingPackage (p : PackagePath) : Failure := .new .packageLoading s!"no such package `{p}`"

/-- The packages that targets make up, the missing packages, and the toolchains. A package of which
a message is given has had errors. -/
def contents (targets : List Target) (errors : List (PackagePath × String))
    (missing : List PackagePath) : Except Failure Loaded := do
  let paths := (SortedSet.ofList (targets.map fun t => t.label.package)).members
  let packages ← (paths.mapM fun p => do
    let made ← Package.ofTargets p (targets.filter fun t => t.label.package == p)
    return match Listing.find? p (Listing.ofEntries errors) with
    | some message => made.withError message
    | none => made).mapError PackageError.toFailure
  return {
    packages := packages
    missing := missing.map fun p => (p, missingPackage p)
    registry := some (← registry.mapError .ofLabelError) }

def stopMessage (k : TargetKey) : AnalysisSession.DriveEnd → Option String
  | .unexpected key => some s!"unexpected missing key `{key}`"
  | .never => some s!"`{k}` never became ready"
  | _ => none

end BuildAnalysis.SampleWorkspace
