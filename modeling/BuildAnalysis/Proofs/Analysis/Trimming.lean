import BuildAnalysis.Proofs.Analysis.Condition

/-!
# Trimmed configurations and the choices made in them

A dependency that keeps the configuration is analyzed in its options trimmed to the fragments of the
dependency. Settings take no part in these fragments. So a condition that is met before trimming is
met after it exactly if the fragments that the setting reads happen to be kept, and an attribute
keeps its value if this holds of all settings that it consults.
-/
namespace BuildAnalysis

open Engine (Store)
open BuiltinRules (IsSetting Installed)

variable {st : Store analysisSpace} {services : Services}

/-- Trimming makes no difference to the settings: they are not met anyway, or all the fragments
that they read are kept. -/
def Settings.SurvivesTrim (s : Settings) (o : BuildOptions) (kept : SortedSet String) : Prop :=
  s.isMet o = false ∨ ∀ fragment ∈ s.fragments, fragment ∈ kept

theorem Settings.isMet_trim_iff {s : Settings} {o : BuildOptions} {kept : SortedSet String} :
    (s.isMet (o.trim kept) = true ↔ s.isMet o = true) ↔ s.SurvivesTrim o kept := by
  rw [isMet_trim, SurvivesTrim]
  cases s.isMet o <;> simp

def SettingAt (st : Store analysisSpace) (label : Label) (settings : Settings) : Prop :=
  ∃ t, TargetAt st label t ∧ IsSetting t settings

namespace Target

theorem mem_selectKeys {t : Target} {a : RuleAttr × AttrExpr} (ha : a ∈ t.attributes) {l : Label}
    (hl : l ∈ a.2.keyOccurrences) : l ∈ t.selectKeys := by
  have hfold : ∀ (as : List (RuleAttr × AttrExpr)) (known : List Label),
      (l ∈ known ∨ ∃ a ∈ as, l ∈ a.2.keyOccurrences) →
        l ∈ as.foldl (fun keys e => e.2.selectKeys keys) known := by
    intro as
    induction as with
    | nil =>
        intro known h
        exact h.resolve_right (by simp)
    | cons b as ih =>
        intro known h
        refine ih _ ?_
        change l ∈ Listing.addAll known b.2.keyOccurrences ∨ _
        rw [Listing.mem_addAll]
        rcases h with h | ⟨a, ha, hl⟩
        · exact .inl (.inl h)
        · rcases List.mem_cons.mp ha with rfl | ha
          · exact .inl (.inr hl)
          · exact .inr ⟨a, ha, hl⟩
  exact hfold t.attributes [] (.inr ⟨a, ha, hl⟩)

end Target

namespace Conditions

variable {c : Configuration} {t : Target} {f f' : Findings} {ks : List AnalysisKey}

/-- A condition that is a setting turns out as the configuration says. -/
theorem yields_ofTarget_setting (hst : Consistent (some services) st)
    (hservices : Installed services) {conds : Conditions}
    (h : Staged.Yields st f (ofTarget t (some c)) (.ok conds) f' ks) {key : Label}
    (hkey : key ∈ t.selectKeys) {settings : Settings} (hsettings : SettingAt st key settings) :
    ∃ label, conds.get? key = some ⟨label, settings, settings.isMet c.options⟩ := by
  obtain ⟨u, hu, hsettings⟩ := hsettings
  obtain ⟨m, hm, v, hv, hcondition⟩ := yields_ofTarget_ok h hkey
  obtain ⟨label, hlabel⟩ := hsettings.condition? hst hservices hu rfl hv
  obtain rfl := Option.some.inj (hcondition.symm.trans hlabel)
  exact ⟨label, hm⟩

/-- A condition that is a setting turns out alike in trimmed options exactly if it survives. -/
theorem yields_ofTarget_trim (hst : Consistent (some services) st) (hservices : Installed services)
    {conds conds' : Conditions} {g g' : Findings} {ls : List AnalysisKey} {kept : SortedSet String}
    (h : Staged.Yields st f (ofTarget t (some c)) (.ok conds) f' ks)
    (h' : Staged.Yields st g (ofTarget t (some (.ofOptions (c.options.trim kept)))) (.ok conds')
      g' ls)
    {key : Label} (hkey : key ∈ t.selectKeys) {settings : Settings}
    (hsettings : SettingAt st key settings) :
    ∃ m m', conds.get? key = some m ∧ conds'.get? key = some m' ∧ m.settings = m'.settings ∧
      ((m'.holds = true ↔ m.holds = true) ↔ settings.SurvivesTrim c.options kept) := by
  obtain ⟨label, hm⟩ := yields_ofTarget_setting hst hservices h hkey hsettings
  obtain ⟨label', hm'⟩ := yields_ofTarget_setting hst hservices h' hkey hsettings
  exact ⟨_, _, hm, hm', rfl, Settings.isMet_trim_iff⟩

/-- Conditions that turned out alike extend each other. -/
theorem context_extendedOn {conds conds' : Conditions} {c' : Configuration} {keys : List Label}
    (h : ∀ key ∈ keys, ∃ m m', conds.get? key = some m ∧ conds'.get? key = some m' ∧
      m.settings = m'.settings ∧ m.holds = m'.holds) :
    (conds.context c).ExtendedOn keys (conds'.context c') := by
  intro key hkey r hr
  obtain ⟨m, m', hm, hm', hsettings, hholds⟩ := h key hkey
  simp only [context, hm] at hr
  simp only [context, hm', ← hr, hsettings, hholds]

end Conditions

/-- Let an edge of a configured target or aspect keep the configuration, in an engine with the
built-in rules and after any history, and let its target have a configuration. Then the dependency
is analyzed in the options trimmed to the fragments cached for its label. If its conditions are
resolved there and in the options as they were, a condition that is a setting turns out alike
exactly if the setting survives the trimming. An attribute all of whose conditions are such settings
has the same value. -/
theorem trimmed_choices_eq (hservices : Installed services) {start : AnalysisSession}
    (empty : start.store = {}) {history : List (Engine.Call analysisSpace)}
    (proper : ∀ call ∈ history, call.Proper (AnalysisKey.computation (some services)))
    {nest : Engine.Nest analysisSpace} {s : AnalysisSession}
    (hs : s.store = (start.after history).store) {source : EdgeSource} {parent : Configuration}
    (hparent : source.configuration = some parent) {nodes : List (Edge × Target)}
    (hnodes : ∀ n ∈ nodes, TargetAt s.store n.1.label n.2) {f f' : Findings}
    {deps : List Dependency}
    (resolves : (((source.dependencies nodes).runFrom f).run.run nest { session := s }).1 =
      .ok (.ok deps, f'))
    {e : Edge} {t : Target} (hnode : (e, t) ∈ nodes) (hkeep : e.transition = .keep)
    (ht : t.isConfigurable = true) :
    ∃ kept, s.store.value? (.fragments e.label) = some (.ok kept) ∧
      EdgeSource.dependency e none (some (.ofOptions (parent.options.trim kept))) ∈ deps ∧
      ∀ {g g' h h' : Findings} {conds conds' : Conditions},
        (((Conditions.ofTarget t (some parent)).runFrom g).run.run nest { session := s }).1 =
          .ok (.ok conds, g') →
        (((Conditions.ofTarget t (some (.ofOptions (parent.options.trim kept)))).runFrom
          h).run.run nest { session := s }).1 = .ok (.ok conds', h') →
        (∀ key ∈ t.selectKeys, ∀ settings, SettingAt s.store key settings →
          ∃ m m', conds.get? key = some m ∧ conds'.get? key = some m' ∧
            ((m'.holds = true ↔ m.holds = true) ↔
              settings.SurvivesTrim parent.options kept)) ∧
        ∀ a ∈ t.attributes,
          (∀ key ∈ a.2.keyOccurrences, ∃ settings, SettingAt s.store key settings ∧
            settings.SurvivesTrim parent.options kept) →
          ∀ v, conds'.configure (some (.ofOptions (parent.options.trim kept))) a.2 = .ok v ↔
            conds.configure (some parent) a.2 = .ok v := by
  have hst := consistent_after empty proper hs
  obtain ⟨_, _, hdeps⟩ :=
    Engine.Demand.yields_of_run (EdgeSource.dependencies_lawful source nodes f) resolves
  obtain ⟨fragments, expanded, hfragments, hexpanded, rfl⟩ :=
    EdgeSource.yields_dependencies_ok hst hparent ⟨_, hdeps⟩
  obtain ⟨r, hr, hfind⟩ := hfragments _ hnode ht
  obtain ⟨below, _, rfl⟩ := AnalysisKey.value?_fragments hst (hnodes _ hnode) hr
  refine ⟨_, hr, ?_, ?_⟩
  · obtain ⟨x, hmem, hx⟩ := Engine.exists_of_mem_left hexpanded hnode
    rw [EdgeSource.configurationsOf_keep ht hkeep, hfind] at hx
    obtain rfl := Except.ok.inj hx
    refine Listing.mem_distinct.mpr (List.mem_map.mpr ⟨_, List.mem_flatten_of_mem hmem
      List.mem_cons_self, rfl⟩)
  · intro g g' h h' conds conds' hconds hconds'
    obtain ⟨_, _, hyields⟩ :=
      Engine.Demand.yields_of_run (Conditions.ofTarget_lawful _ _ g) hconds
    obtain ⟨_, _, hyields'⟩ :=
      Engine.Demand.yields_of_run (Conditions.ofTarget_lawful _ _ h) hconds'
    refine ⟨fun key hkey settings hsettings => ?_, fun a ha hkeys v => ?_⟩
    · obtain ⟨m, m', hm, hm', _, hholds⟩ := Conditions.yields_ofTarget_trim hst hservices
        ⟨_, hyields⟩ ⟨_, hyields'⟩ hkey hsettings
      exact ⟨m, m', hm, hm', hholds⟩
    · have halike : ∀ key ∈ a.2.keyOccurrences, ∃ m m', conds.get? key = some m ∧
          conds'.get? key = some m' ∧ m.settings = m'.settings ∧ m.holds = m'.holds := by
        intro key hkey
        obtain ⟨settings, hsettings, hsurvives⟩ := hkeys key hkey
        obtain ⟨m, m', hm, hm', hsame, hholds⟩ := Conditions.yields_ofTarget_trim hst hservices
          ⟨_, hyields⟩ ⟨_, hyields'⟩ (Target.mem_selectKeys ha hkey) hsettings
        exact ⟨m, m', hm, hm', hsame, Bool.eq_iff_iff.mpr (hholds.mpr hsurvives).symm⟩
      have halike' : ∀ key ∈ a.2.keyOccurrences, ∃ m m', conds'.get? key = some m ∧
          conds.get? key = some m' ∧ m.settings = m'.settings ∧ m.holds = m'.holds := by
        intro key hkey
        obtain ⟨m, m', hm, hm', hsame, hholds⟩ := halike key hkey
        exact ⟨m', m, hm', hm, hsame.symm, hholds.symm⟩
      exact ⟨AttrExpr.configure_extended a.2 (Conditions.context_extendedOn halike') v,
        AttrExpr.configure_extended a.2 (Conditions.context_extendedOn halike) v⟩

end BuildAnalysis

/-! A library that chooses by a setting, and a target that depends on it. -/

namespace BuildAnalysis.TrimmingSample

open BuiltinRules.AliasSample

def libLabel : Label := ⟨⟨"lib", rfl, by decide⟩, ⟨"lib", rfl, by decide⟩⟩

def value : RuleAttr × AttrExpr :=
  (.ofDecl (.value "value" (.text "")),
    .select [(optLabel, .text "chosen")] (some (.text "fallback")))

def lib : Target :=
  { label := libLabel, kind := .rule (rule "library" [value.1] (by decide))
    values := [("value", value.2)] }

def libPackage : Package where
  label := libLabel.package
  targets := [lib]
  owned := by decide
  distinct := by decide

def edge : Edge := { kind := .attribute "deps", label := libLabel, transition := .keep }

def top : Target :=
  { label := binLabel, kind := .rule (rule "binary" [.ofDecl (.dep "deps")] (by decide))
    values := [("deps", .labelList [libLabel])] }

def source : EdgeSource := { target := top, configuration := some optimized }

def trimmed : Configuration := .ofOptions (optimized.options.trim ∅)

def history : List (Engine.Call analysisSpace) :=
  [loading [package, libPackage],
    .computeMany compute {} true [AnalysisKey.fragments libLabel, .configuration trimmed.key,
      .target ⟨optLabel, some optimized.key, none⟩, .target ⟨optLabel, some trimmed.key, none⟩]]

def session : AnalysisSession := Engine.Session.after start history

def resolvedIn (c : Configuration) :
    Except Engine.Suspension (Except Abort Conditions × Findings) :=
  (((Conditions.ofTarget lib (some c)).runFrom {}).run.run
    (Engine.nestWithin compute {}) { session := session }).1

def dependencies : Except Engine.Suspension (Except Abort (List Dependency) × Findings) :=
  (((source.dependencies [(edge, lib)]).runFrom {}).run.run
    (Engine.nestWithin compute {}) { session := session }).1

theorem history_proper : ∀ call ∈ history, call.Proper compute :=
  List.forall_mem_cons.mpr ⟨loading_proper _, List.forall_mem_singleton.mpr compute_interrupts⟩

theorem dependencies_eq_ok : ∃ f, dependencies =
    .ok (.ok [EdgeSource.dependency edge none (some trimmed)], f) := by
  have hdeps : (Staged.ended? dependencies).map Prod.fst =
      some [EdgeSource.dependency edge none (some trimmed)] := by
    decide +kernel
  obtain ⟨⟨deps, f⟩, hrun, rfl⟩ := Option.map_eq_some_iff.mp hdeps
  exact ⟨f, Staged.ended?_eq_some hrun⟩

theorem resolvedIn_eq_ok : (∃ conds f, resolvedIn optimized = .ok (.ok conds, f) ∧
      conds.get? optLabel = some ⟨optLabel, optSettings, true⟩ ∧
      success? (some (conds.configure (some optimized) value.2)) = some (.text "chosen")) ∧
    ∃ conds f, resolvedIn trimmed = .ok (.ok conds, f) ∧
      conds.get? optLabel = some ⟨optLabel, optSettings, false⟩ ∧
      success? (some (conds.configure (some trimmed) value.2)) = some (.text "fallback") := by
  have hread : ∀ c holds v, ((Staged.ended? (resolvedIn c)).map fun p => (p.1.get? optLabel,
      success? (some (p.1.configure (some c) value.2)))) =
        some (some ⟨optLabel, optSettings, holds⟩, some v) →
      ∃ conds f, resolvedIn c = .ok (.ok conds, f) ∧
        conds.get? optLabel = some ⟨optLabel, optSettings, holds⟩ ∧
        success? (some (conds.configure (some c) value.2)) = some v := by
    intro c holds v h
    obtain ⟨⟨conds, f⟩, hrun, h⟩ := Option.map_eq_some_iff.mp h
    obtain ⟨hget, hvalue⟩ := Prod.mk.inj h
    exact ⟨conds, f, Staged.ended?_eq_some hrun, hget, hvalue⟩
  exact ⟨hread _ _ _ (by decide +kernel), hread _ _ _ (by decide +kernel)⟩

theorem settingAt_opt : SettingAt session.store optLabel optSettings :=
  ⟨opt, ⟨package, success?_eq_some (by decide +kernel), rfl⟩, isSetting_opt⟩

theorem trimmed_choices_eq_lib : ∃ conds conds' f f', resolvedIn optimized = .ok (.ok conds, f) ∧
    resolvedIn trimmed = .ok (.ok conds', f') ∧
    ∃ m m', conds.get? optLabel = some m ∧ conds'.get? optLabel = some m' ∧
      ((m'.holds = true ↔ m.holds = true) ↔ optSettings.SurvivesTrim optimized.options ∅) := by
  obtain ⟨f, hdeps⟩ := dependencies_eq_ok
  obtain ⟨⟨conds, g, hconds, _⟩, conds', g', hconds', _⟩ := resolvedIn_eq_ok
  have hlib : TargetAt session.store libLabel lib :=
    ⟨libPackage, success?_eq_some (by decide +kernel), rfl⟩
  have hsession : session.store = (Engine.Session.after start history).store := rfl
  have hparent : source.configuration = some optimized := rfl
  obtain ⟨kept, hkept, _, h⟩ := trimmed_choices_eq ⟨rfl, rfl⟩ rfl history_proper hsession hparent
    (List.forall_mem_singleton.mpr hlib) hdeps List.mem_cons_self rfl rfl
  have hnone : session.store.value? (AnalysisKey.fragments libLabel) = some (.ok ∅) :=
    success?_eq_some (by decide +kernel)
  obtain rfl : kept = ∅ := Except.ok.inj (Option.some.inj (hkept.symm.trans hnone))
  exact ⟨conds, conds', g, g', hconds, hconds',
    (h hconds hconds').1 optLabel List.mem_cons_self optSettings settingAt_opt⟩

/-- An edge whose trimmed configuration turns a condition around, and an attribute with it. -/
theorem trimming_changes_choice : ∃ f conds g conds' g' m m', source.edges = .ok [edge] ∧
    dependencies = .ok (.ok [EdgeSource.dependency edge none (some trimmed)], f) ∧
    resolvedIn optimized = .ok (.ok conds, g) ∧ resolvedIn trimmed = .ok (.ok conds', g') ∧
    SettingAt session.store optLabel optSettings ∧
    conds.get? optLabel = some m ∧ conds'.get? optLabel = some m' ∧
    ¬ (m'.holds = true ↔ m.holds = true) ∧
    conds.configure (some optimized) value.2 = .ok (.text "chosen") ∧
    conds'.configure (some trimmed) value.2 = .ok (.text "fallback") := by
  obtain ⟨f, hdeps⟩ := dependencies_eq_ok
  obtain ⟨⟨conds, g, hconds, hm, hv⟩, conds', g', hconds', hm', hv'⟩ := resolvedIn_eq_ok
  exact ⟨f, conds, g, conds', g', _, _, rfl, hdeps, hconds, hconds', settingAt_opt, hm, hm',
    by simp, Option.some.inj (success?_eq_some hv), Option.some.inj (success?_eq_some hv')⟩

end BuildAnalysis.TrimmingSample
