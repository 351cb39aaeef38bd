import BuildAnalysis.Analysis.Implementation

/-!
# Built-in rules

Two rules that every workspace has. A setting provides whether the configuration has given option
and flag values, for choices to consult; an alias stands for another target.
-/
namespace BuildAnalysis.BuiltinRules

def settingId : String := "config_setting"

def aliasId : String := "alias"

def withoutToolchains (id : String) (attributes : List RuleAttr) : Except Failure Rule :=
  (Rule.declare id attributes).map fun r => { r with usesToolchainResolution := false }

def settingRule : Except Failure Rule :=
  withoutToolchains settingId
    [.ofDecl (AttrDecl.value "values" (.dict [])).nonconfigurable,
      .ofDecl (AttrDecl.value "flag_values" (.dict [])).nonconfigurable]

def aliasRule : Except Failure Rule := withoutToolchains aliasId [.ofDecl (.dep "actual")]

def entries (name : String) (v : AttrValue) : Except Failure (List (AttrValue × AttrValue)) :=
  match v.asDict? with
  | some es => .ok es
  | none => .error (.new .input s!"`{name}` must be a dict")

def optionEntry (e : AttrValue × AttrValue) : Except String (String × String) :=
  match e.1.asText?, e.2.asText? with
  | some k, some v => if k.toList.contains '.' then .ok (k, v) else .error (wrong e)
  | _, _ => .error (wrong e)
where
  wrong (e : AttrValue × AttrValue) : String :=
    s!"`values` entries must map `fragment.option` to a string, got " ++
      e.1.debugText ++ ": " ++ e.2.debugText

def flagEntry (e : AttrValue × AttrValue) : Except String (Label × String) :=
  match e.1.asLabel?, e.2.asText? with
  | some k, some v => .ok (k, v)
  | _, _ =>
    .error (s!"`flag_values` entries must map a label to a string, got " ++
      e.1.debugText ++ ": " ++ e.2.debugText)

def partition {ε α : Type} (rs : List (Except ε α)) : List ε × List α :=
  (rs.filterMap fun
    | .error e => some e
    | .ok _ => none,
    rs.filterMap Except.toOption)

/-- A setting reports its bad entries and provides whether the good ones are met. -/
def setting : RuleImplementation := fun c => do
  let values ← Build.ofExcept (c.attr "values" >>= entries "values")
  let (badValues, goodValues) := partition (values.map optionEntry)
  badValues.forM c.reportError
  let flags ← Build.ofExcept (c.attr "flag_values" >>= entries "flag_values")
  let (badFlags, goodFlags) := partition (flags.map flagEntry)
  badFlags.forM c.reportError
  let settings : Settings := ⟨.ofList goodValues, .ofList goodFlags⟩
  if settings.values.isEmpty && settings.flagValues.isEmpty then
    c.reportError "Either `values` or `flag_values` must be set"
  match c.configuration with
  | none => Build.fail (.internal s!"`{c.label}` analyzed without a configuration")
  | some configuration =>
    return .providers ((∅ : Providers).put Providers.conditionName
      (.condition ⟨c.label, settings, settings.isMet configuration.options⟩))

/-- An alias stands for its one label. -/
def standIn : RuleImplementation := fun c => do
  let actual ← Build.ofExcept (c.attr "actual")
  match actual.asLabel? with
  | some l => return .standsFor l
  | none => Build.fail (.new .input s!"`actual` of alias `{c.label}` must be a single label")

def implementations : Implementations :=
  (({} : Implementations).addRule settingId setting).addRule aliasId standIn

end BuildAnalysis.BuiltinRules
