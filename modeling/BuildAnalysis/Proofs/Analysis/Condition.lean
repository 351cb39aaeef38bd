import BuildAnalysis.Analysis.Requests
import BuildAnalysis.Proofs.Analysis.Builtin
import BuildAnalysis.Proofs.Configuration.Trim

/-!
# Conditions behind aliases

A condition that is written as an alias is analyzed in the configuration of the alias, trimmed to
the fragments of the setting that it stands for. Settings need no fragments, so no option is left
to them there. Such a condition turns out as the configuration of its target says only if the
setting expects no option or is not met anyway.
-/
namespace BuildAnalysis.BuiltinRules

open Engine (Store)

variable {services : Services} {st : Store analysisSpace}

/-- A configured target leads, through so many aliases, to another. -/
inductive StandsFor (st : Store analysisSpace) : Nat → TargetKey → TargetKey → Prop where
  | refl (k : TargetKey) : StandsFor st 0 k k
  | step {n : Nat} {k k' l : TargetKey} {t : Target} {v : TargetValue}
      (target : TargetAt st k.label t) (stands : IsAlias t)
      (value : st.value? (.target k) = some (.ok v)) (dependency : k' ∈ v.dependencies)
      (rest : StandsFor st n k' l) : StandsFor st (n + 1) k l

theorem StandsFor.exists_target {n : Nat} {k l : TargetKey} (h : StandsFor st n k l) {t : Target}
    (ht : TargetAt st l.label t) {settings : Settings} (hsettings : IsSetting t settings) :
    ∃ u, TargetAt st k.label u ∧ u.isConfigurable = true ∧ (n = 0 → u = t) := by
  cases h with
  | refl => exact ⟨t, ht, hsettings.isConfigurable, fun _ => rfl⟩
  | step target stands _ _ _ => exact ⟨_, target, stands.isConfigurable, fun h => by cases h⟩

/-- How a cached target that leads to a setting turned out: behind aliases the setting is met only
if it expects no options. -/
theorem StandsFor.condition? (hst : Consistent (some services) st) (hservices : Installed services)
    {n : Nat} {k l : TargetKey} (h : StandsFor st n k l) {t : Target}
    (ht : TargetAt st l.label t) {settings : Settings} (hsettings : IsSetting t settings)
    {c : ConfigurationKey} (hc : k.configuration = some c) {v : TargetValue}
    (hv : st.value? (.target k) = some (.ok v)) :
    ∃ m, v.providers.condition? = some m ∧ m.settings = settings ∧
      (m.holds = true ↔ settings.isMet c.options = true ∧ (n = 0 ∨ settings.values = ∅)) := by
  induction h generalizing c v with
  | refl k =>
      obtain ⟨label, hcondition⟩ := hsettings.condition? hst hservices ht hc hv
      exact ⟨_, hcondition, rfl, by simp⟩
  | @step n k k' l u w target stands value dependency rest ih =>
      obtain rfl : v = w := Except.ok.inj (Option.some.inj (hv.symm.trans value))
      obtain ⟨k₁, v', hdeps, hv', hproviders, htrimmed⟩ :=
        stands.value? hst hservices target hc hv
      rw [hdeps] at dependency
      obtain rfl := List.mem_singleton.mp dependency
      obtain ⟨u', hu', hconfigurable, hlast⟩ := rest.exists_target ht hsettings
      obtain ⟨r, hr, hc'⟩ := htrimmed u' hu' hconfigurable
      obtain ⟨below, _, rfl⟩ := AnalysisKey.value?_fragments hst hu' hr
      obtain ⟨m, hm, hmsettings, hholds⟩ := ih ht hc' hv'
      refine ⟨m, by rw [hproviders, hm], hmsettings, hholds.trans ?_⟩
      rw [EdgeSource.trimmed, Settings.isMet_trim]
      constructor
      · rintro ⟨⟨hmet, hfragments⟩, hn⟩
        refine ⟨hmet, .inr ?_⟩
        rcases hn with rfl | hvalues
        · -- The last alias trims to the fragments of the setting, of which there are none.
          obtain rfl := hlast rfl
          have hnone := hsettings.value?_fragments hst hu' hr
          rw [Except.ok.inj hnone] at hfragments
          refine Settings.values_eq_empty hmet (List.eq_nil_iff_forall_not_mem.mpr ?_)
          intro fragment hfragment
          cases hfragments fragment hfragment
        · exact hvalues
      · rintro ⟨hmet, hn⟩
        have hvalues := hn.resolve_left (Nat.succ_ne_zero n)
        refine ⟨⟨hmet, ?_⟩, .inr hvalues⟩
        rw [Settings.fragments, hvalues]
        rintro fragment ⟨⟩

/-- Let the conditions of a target be resolved in an engine with the built-in rules, after any
history. A condition that leads, through `n` aliases, to a setting turns out as met exactly if the
configuration meets the setting and there is no alias in between or the setting expects no option.
So it agrees with the configuration of the target in these cases and where the setting is not met,
and in no others. -/
theorem condition_holds_iff {services : Services} (hservices : Installed services)
    {start : AnalysisSession} (empty : start.store = {})
    {history : List (Engine.Call analysisSpace)}
    (proper : ∀ call ∈ history, call.Proper (AnalysisKey.computation (some services)))
    {nest : Engine.Nest analysisSpace} {s : AnalysisSession}
    (hs : s.store = (start.after history).store) {t : Target} {c : Configuration}
    {f f' : Findings} {conditions : Conditions}
    (succeeds : (((Conditions.ofTarget t (some c)).runFrom f).run.run nest { session := s }).1 =
      .ok (.ok conditions, f'))
    {key : Label} (hkey : key ∈ t.selectKeys) {n : Nat} {k : TargetKey}
    (leads : StandsFor s.store n ⟨key, some c.key, none⟩ k) {u : Target}
    (hu : TargetAt s.store k.label u) {settings : Settings} (hsettings : IsSetting u settings) :
    ∃ m, conditions.get? key = some m ∧ m.settings = settings ∧
      (m.holds = true ↔ settings.isMet c.options = true ∧ (n = 0 ∨ settings.values = ∅)) ∧
      ((m.holds = true ↔ settings.isMet c.options = true) ↔
        n = 0 ∨ settings.values = ∅ ∨ settings.isMet c.options = false) := by
  have hst := consistent_after empty proper hs
  obtain ⟨ks, es, hyields⟩ :=
    Engine.Demand.yields_of_run (Conditions.ofTarget_lawful t (some c) f) succeeds
  obtain ⟨m, hm, v, hv, hcondition⟩ := Conditions.yields_ofTarget_ok ⟨es, hyields⟩ hkey
  obtain ⟨m', hm', hmsettings, hholds⟩ :=
    leads.condition? hst hservices hu hsettings rfl hv
  obtain rfl := Option.some.inj (hcondition.symm.trans hm')
  refine ⟨m, hm, hmsettings, hholds, ?_⟩
  change (m.holds = true ↔ settings.isMet c.options = true ∧ _) at hholds
  cases hmet : settings.isMet c.options <;> simp [hholds, hmet]

end BuildAnalysis.BuiltinRules

/-! A package with a setting and an alias of it, and a target that chooses by the alias. -/

namespace BuildAnalysis.BuiltinRules.AliasSample

def optLabel : Label := ⟨⟨"c", rfl, by decide⟩, ⟨"opt", rfl, by decide⟩⟩

def aliasLabel : Label := ⟨⟨"c", rfl, by decide⟩, ⟨"alias", rfl, by decide⟩⟩

def binLabel : Label := ⟨⟨"app", rfl, by decide⟩, ⟨"bin", rfl, by decide⟩⟩

def rule (id : String) (attributes : List RuleAttr)
    (h : ((Rule.constraintsDecl :: attributes).map fun a => a.name).Nodup) : Rule :=
  { id := id, attributes := Rule.constraintsDecl :: attributes, distinctNames := h
    usesToolchainResolution := false }

/-- Expects `cpp.mode` to be `opt`. -/
def opt : Target :=
  { label := optLabel
    kind := .rule (rule settingId [.ofDecl (AttrDecl.value "values" (.dict [])).nonconfigurable,
      .ofDecl (AttrDecl.value "flag_values" (.dict [])).nonconfigurable] (by decide))
    values := [("values", .dict [(.text "cpp.mode", .text "opt")])] }

def optSettings : Settings := { values := .ofList [("cpp.mode", "opt")] }

def standsForOpt : Target :=
  { label := aliasLabel
    kind := .rule (rule aliasId [.ofDecl (.dep "actual")] (by decide))
    values := [("actual", .label optLabel)] }

def bin : Target :=
  { label := binLabel
    kind := .rule (rule "binary" [.ofDecl (.value "value" (.text ""))] (by decide))
    values := [("value", .select [(aliasLabel, .text "chosen")] (some (.text "fallback")))] }

def package : Package where
  label := optLabel.package
  targets := [opt, standsForOpt]
  owned := by decide
  distinct := by decide

def services : Services := { implementations := implementations }

def compute : Engine.Computation analysisSpace := AnalysisKey.computation (some services)

def optimized : Configuration := .ofOptions (({} : BuildOptions).setOption "cpp" "mode" "opt")

def aliasKey : TargetKey := ⟨aliasLabel, some optimized.key, none⟩

def optKey : TargetKey := ⟨optLabel, some ⟨optimized.options.trim ∅⟩, none⟩

def start : AnalysisSession := { world := { permits := .ofCapacity 1 } }

def loading (ps : List Package) : Engine.Call analysisSpace :=
  .commit (ps.map fun p => .inject (S := analysisSpace) (.package p.label) (.ok p))

def history : List (Engine.Call analysisSpace) :=
  [loading [package], .compute compute {} true (.target aliasKey)]

def resolved : Except Engine.Suspension (Except Abort Conditions × Findings) :=
  (((Conditions.ofTarget bin (some optimized)).runFrom {}).run.run
    (Engine.nestWithin compute {}) { session := Engine.Session.after start history }).1

theorem compute_interrupts : Engine.Computation.Interrupts compute compute := by
  have hservices : AnalysisKey.ServicesLawful (some services) := by
    intro s hs
    obtain rfl := Option.some.inj hs
    exact implementations_lawful
  exact .refl (AnalysisKey.computation_lawful hservices)

theorem loading_proper {c : Engine.Computation analysisSpace} (ps : List Package) :
    (loading ps).Proper c := by
  intro change hchange
  obtain ⟨p, _, rfl⟩ := List.mem_map.mp hchange
  rfl

theorem history_proper : ∀ call ∈ history, call.Proper compute :=
  List.forall_mem_cons.mpr ⟨loading_proper _, List.forall_mem_singleton.mpr compute_interrupts⟩

theorem isSetting_opt : IsSetting opt optSettings := ⟨⟨_, rfl, rfl⟩, rfl⟩

theorem targetAt_opt : TargetAt (Engine.Session.after start history).store optLabel opt :=
  ⟨package, success?_eq_some (by decide +kernel), rfl⟩

/-- The alias leads to the setting, which is analyzed without any option. -/
theorem standsFor_opt : StandsFor (Engine.Session.after start history).store 1 aliasKey optKey := by
  have hdeps : (success? ((Engine.Session.after start history).store.value?
      (AnalysisKey.target aliasKey))).map TargetValue.dependencies = some [optKey] := by
    decide +kernel
  obtain ⟨v, hv, hdeps⟩ := Option.map_eq_some_iff.mp hdeps
  refine .step (t := standsForOpt) ⟨package, success?_eq_some (by decide +kernel), rfl⟩
    ⟨_, rfl, rfl⟩ (success?_eq_some hv) ?_ (.refl optKey)
  rw [hdeps]
  exact List.mem_singleton_self optKey

theorem resolved_eq_ok : ∃ conditions f, resolved = .ok (.ok conditions, f) ∧
    conditions.get? aliasLabel = some ⟨optLabel, optSettings, false⟩ := by
  have hget : (Staged.ended? resolved).map (fun p => p.1.get? aliasLabel) =
      some (some ⟨optLabel, optSettings, false⟩) := by
    decide +kernel
  obtain ⟨⟨conditions, f⟩, hrun, hget⟩ := Option.map_eq_some_iff.mp hget
  exact ⟨conditions, f, Staged.ended?_eq_some hrun, hget⟩

theorem condition_holds_iff_alias : ∃ conditions f, resolved = .ok (.ok conditions, f) ∧
    ∃ m, conditions.get? aliasLabel = some m ∧ m.settings = optSettings ∧
      (m.holds = true ↔ optSettings.isMet optimized.options = true ∧
        (1 = 0 ∨ optSettings.values = ∅)) ∧
      ((m.holds = true ↔ optSettings.isMet optimized.options = true) ↔
        1 = 0 ∨ optSettings.values = ∅ ∨ optSettings.isMet optimized.options = false) := by
  obtain ⟨conditions, f, hrun, _⟩ := resolved_eq_ok
  exact ⟨conditions, f, hrun, condition_holds_iff ⟨rfl, rfl⟩ rfl history_proper rfl hrun
    List.mem_cons_self standsFor_opt targetAt_opt isSetting_opt⟩

/-- A condition behind an alias that does not turn out as the configuration says. -/
theorem condition_misses_options : ∃ conditions f m, resolved = .ok (.ok conditions, f) ∧
    conditions.get? aliasLabel = some m ∧
    StandsFor (Engine.Session.after start history).store 1 aliasKey optKey ∧
    IsSetting opt optSettings ∧
    ¬ (m.holds = true ↔ optSettings.isMet optimized.options = true) := by
  obtain ⟨conditions, f, hrun, hget⟩ := resolved_eq_ok
  have hmet : optSettings.isMet optimized.options = true := by decide +kernel
  exact ⟨conditions, f, _, hrun, hget, standsFor_opt, isSetting_opt, by simp [hmet]⟩

end BuildAnalysis.BuiltinRules.AliasSample
