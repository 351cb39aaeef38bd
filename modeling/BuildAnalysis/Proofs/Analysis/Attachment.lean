import BuildAnalysis.Proofs.Analysis.Aggregation
import BuildAnalysis.Proofs.Analysis.Condition

/-!
# What a batch attaches to its values

A batch that is resolved attaches a target and a configuration to the value of each dependency. The
value of an alias is that of the target it stands for, so the target may be in another package and
the configuration may be another one than those asked for. They are those of the value, whichever of
the two passes has found them. A target of a value is found wherever it is looked up, so the only
dependencies that make a batch fail are those whose own evaluation has failed.
-/
namespace BuildAnalysis

open Engine (Store)

namespace Batch

variable {services : Option Services} {st : Store analysisSpace} {f f' : Findings}
  {ks : List AnalysisKey}

/-- What is attached to the value of a dependency: the target of the value's own label, as the
package of that label has it, and the configuration that the value names, if it names one. -/
structure Attached (st : Store analysisSpace) (d : Dependency) (a : AnalyzedTarget) : Prop where
  value : st.value? (.target d.key) = some (.ok a.value)
  label : a.target.label = a.value.label
  target : TargetAt st a.value.label a.target
  configuration : a.configuration.map Configuration.key = a.value.configuration

def Failed (st : Store analysisSpace) (d : Dependency) : Prop :=
  ∃ e, st.value? (.target d.key) = some (.error e)

/-- The first pass finds the value of a dependency, on the package asked for. -/
def FirstFound (st : Store analysisSpace) (d : Dependency) (p : PartialTarget) : Prop :=
  ∃ v l, st.value? (.target d.key) = some v ∧ st.value? (.package d.label.package) = some l ∧
    firstLook d v l = .found p

/-- No pass misses the target of a dependency that has a value: not the first on the package asked
for, nor the second on what it has asked for. -/
structure NeverMisses (st : Store analysisSpace) (deps : List Dependency) : Prop where
  first : ∀ d ∈ deps, ∀ v l, st.value? (.target d.key) = some (.ok v) →
    st.value? (.package d.label.package) = some l → ∃ p, firstLook d (.ok v) l = .found p
  second : ∀ ps packages configurations, List.Forall₂ (FirstFound st) deps ps →
    SecondAsked st ps packages configurations → ∀ e ∈ deps.zip ps,
      ∃ a, secondLook packages configurations e.1 e.2 = .found a

theorem configuration_of_firstLook {d : Dependency} {value : Except Failure TargetValue}
    {loaded : Except Failure Package} {p : PartialTarget}
    (h : firstLook d value loaded = .found p) {c : Configuration}
    (hc : p.configuration = some c) : p.value.configuration = some c.key := by
  have hasked : ∀ v : TargetValue,
      (if v.configuration = d.configurationKey then d.configuration else none) = some c →
        v.configuration = some c.key := by
    intro v hv
    split at hv
    next heq => rw [heq, Dependency.configurationKey, hv, Option.map_some]
    next => cases hv
  unfold firstLook at h
  split at h
  next => cases h
  next v =>
    dsimp only at h
    split at h
    next =>
      split at h
      next t ht =>
        cases h
        exact hasked v hc
      next => cases h
    next =>
      cases h
      exact hasked v hc

/-- The second pass keeps the configuration that the first pass has found, else it takes the one that
was requested for the value. -/
theorem secondLook_configuration {packages : List (PackagePath × Except Failure Package)}
    {configurations : List (ConfigurationKey × Configuration)} {d : Dependency} {p : PartialTarget}
    {a : AnalyzedTarget} (h : secondLook packages configurations d p = .found a) :
    a.value = p.value ∧ (∀ c, p.configuration = some c → a.configuration = some c) ∧
      (p.configuration = none →
        a.configuration = p.value.configuration.bind fun k => Listing.find? k configurations) := by
  unfold secondLook at h
  dsimp only at h
  split at h
  next t ht =>
    cases h
    exact ⟨rfl, fun c hc => by simp only [hc], fun hc => by simp only [hc]⟩
  next ht =>
    split at h
    next t hlookup =>
      cases h
      exact ⟨rfl, fun c hc => by simp only [hc], fun hc => by simp only [hc]⟩
    next => cases h

/-- The configuration that the second pass attaches is the one that the value names, if it names
one. -/
theorem configuration_of_secondLook (hst : Consistent services st) {ps : List PartialTarget}
    {packages : List (PackagePath × Except Failure Package)}
    {configurations : List (ConfigurationKey × Configuration)}
    (hasked : SecondAsked st ps packages configurations) {d : Dependency} {p : PartialTarget}
    (hp : p ∈ ps) (hfirst : ∀ c, p.configuration = some c → p.value.configuration = some c.key)
    {a : AnalyzedTarget} (h : secondLook packages configurations d p = .found a) :
    a.configuration.map Configuration.key = a.value.configuration := by
  obtain ⟨hvalue, hkept, htaken⟩ := secondLook_configuration h
  rw [hvalue]
  cases hc : p.configuration with
  | some c =>
      rw [hkept c hc, hfirst c hc]
      rfl
  | none =>
      rw [htaken hc]
      cases hk : p.value.configuration with
      | none => rfl
      | some k =>
          have hwanted : k ∈ configurationsWanted ps :=
            Listing.mem_distinct.mpr (List.mem_filterMap.mpr
              ⟨p, List.mem_filter.mpr ⟨hp, by rw [hc]; rfl⟩, hk⟩)
          rw [Option.bind_some, find?_configurations hst hasked.2 hwanted]
          rfl

theorem FirstFound.firstLooked {d : Dependency} {p : PartialTarget} (h : FirstFound st d p) :
    FirstLooked st d p := by
  obtain ⟨v, l, hv, hl, hfound⟩ := h
  obtain ⟨rfl, htarget⟩ := firstLook_eq_found hfound
  refine ⟨hv, fun t ht => ?_⟩
  obtain ⟨hpackage, hlookup⟩ := htarget t ht
  exact lookedUp_ok.mp ⟨l, hpackage ▸ hl, hlookup⟩

theorem yields_resolve_passes {owner : Label} {configuration : Option ConfigurationKey}
    {deps : List Dependency} {as : List AnalyzedTarget}
    (h : Staged.Yields st f (resolve owner configuration deps) (.ok as) f' ks) :
    ∃ ps packages configurations, List.Forall₂ (FirstFound st) deps ps ∧
      SecondAsked st ps packages configurations ∧
      (deps.zip ps).map (fun e => secondLook packages configurations e.1 e.2) =
        as.map Resolved.found := by
  rcases yields_resolve h with ⟨rfl, has, _⟩ | ⟨_, rs, _, hpass, _, ⟨_, hx, _⟩ |
    ⟨ps, packages, configurations, _, hasked, ⟨_, hfirst⟩, _, hsecond⟩⟩
  · obtain rfl := Except.ok.inj has
    exact ⟨[], [], [], .nil, ⟨.nil, .nil⟩, rfl⟩
  · cases hx
  · rw [yields_settle_ok hfirst] at hpass
    refine ⟨ps, packages, configurations, ?_, hasked, yields_settle_ok hsecond⟩
    exact (List.forall₂_map_right_iff.mp hpass).imp fun d q ⟨v, l, hv, hl, hfound⟩ =>
      ⟨v, l, hv, hl, hfound.symm⟩

/-- The passes attach to each value what belongs to it. -/
theorem forall₂_attached (hst : Consistent services st) (labelled : Labelled st)
    {all : List PartialTarget} {packages : List (PackagePath × Except Failure Package)}
    {configurations : List (ConfigurationKey × Configuration)}
    (hasked : SecondAsked st all packages configurations) {deps : List Dependency}
    {ps : List PartialTarget} {as : List AnalyzedTarget}
    (hfirst : List.Forall₂ (FirstFound st) deps ps) (hall : ∀ p ∈ ps, p ∈ all)
    (hsecond : (deps.zip ps).map (fun e => secondLook packages configurations e.1 e.2) =
      as.map Resolved.found) : List.Forall₂ (Attached st) deps as := by
  induction hfirst generalizing as with
  | nil =>
      cases as with
      | nil => exact .nil
      | cons a as => cases hsecond
  | @cons d p deps ps hp _ ih =>
      obtain ⟨hmem, hall⟩ := List.forall_mem_cons.mp hall
      cases as with
      | nil => cases hsecond
      | cons a as =>
        obtain ⟨hfound, hsecond⟩ := List.cons.inj hsecond
        refine .cons ?_ (ih hall hsecond)
        obtain ⟨hvalue, htarget⟩ := secondLook_eq_found hfound
        obtain ⟨hcached, hown⟩ := hp.firstLooked
        have hconfiguration : a.configuration.map Configuration.key = a.value.configuration := by
          obtain ⟨_, _, _, _, hlook⟩ := hp
          exact configuration_of_secondLook hst hasked hmem
            (fun c hc => configuration_of_firstLook hlook hc) hfound
        have hat : TargetAt st a.value.label a.target := by
          rw [hvalue]
          rcases htarget with ht | ⟨ht, hlookup⟩
          · exact hown _ ht
          · exact lookedUp_ok.mp (hlookup ▸ hasked.lookedUpIn hmem ht)
        exact ⟨hvalue ▸ hcached, hat.label_eq labelled, hat, hconfiguration⟩

theorem neverMisses (hst : Consistent services st) (deps : List Dependency) :
    NeverMisses st deps where
  first d _ v l hv hl := by
    cases hlook : firstLook d (.ok v) l with
    | found p => exact ⟨p, rfl⟩
    | failed e reported =>
        rcases firstLook_eq_failed hlook with ⟨x, hx, _⟩ | ⟨w, y, hw, hpackage, hy, _⟩
        · cases hx
        · obtain rfl := Except.ok.inj hw
          exact absurd ⟨l, hpackage ▸ hl, hy⟩ (not_lookedUp_error hst hv)
  second ps packages configurations hfirst hasked e he := by
    have hmem := (List.of_mem_zip he).2
    obtain ⟨d, _, hp⟩ := Engine.exists_of_mem_right hfirst hmem
    cases hlook : secondLook packages configurations e.1 e.2 with
    | found a => exact ⟨a, rfl⟩
    | failed x reported =>
        obtain ⟨hnone, _, y, hy⟩ := secondLook_eq_failed hlook
        exact absurd (hy ▸ hasked.lookedUpIn hmem hnone)
          (not_lookedUp_error hst hp.firstLooked.1)

/-- Let an engine begin with nothing and go through any history that leaves packages under their own
labels, and let a batch of dependencies be resolved in it. If the batch is resolved, then it has one
entry for each dependency, in their order, with the cached value of the dependency. The target of
an entry is that of the value's label, as the package of that label has it. The entry has a
configuration just if the value names one, and it is that one. If the batch fails, a dependency has
failed itself; for neither pass misses the target of a dependency that has a value. -/
theorem resolved_targets_attached {services : Option Services} {start : AnalysisSession}
    (empty : start.store = {}) {history : List (Engine.Call analysisSpace)}
    (proper : ∀ call ∈ history, call.Proper (AnalysisKey.computation services))
    {nest : Engine.Nest analysisSpace} {s : AnalysisSession}
    (hs : s.store = (start.after history).store) (labelled : Labelled s.store) {owner : Label}
    {configuration : Option ConfigurationKey} {deps : List Dependency} {f f' : Findings}
    {r : Except Abort (List AnalyzedTarget)}
    (hrun : (((resolve owner configuration deps).runFrom f).run.run nest { session := s }).1 =
      .ok (r, f')) :
    (∀ as, r = .ok as → List.Forall₂ (Attached s.store) deps as) ∧
      (∀ x, r = .error x → ∃ d ∈ deps, Failed s.store d) ∧ NeverMisses s.store deps := by
  have hst := consistent_after empty proper hs
  obtain ⟨ks, es, hyields⟩ :=
    Engine.Demand.yields_of_run (resolve_has owner configuration deps f) hrun
  refine ⟨?_, ?_, neverMisses hst deps⟩
  · rintro as rfl
    obtain ⟨ps, packages, configurations, hfirst, hasked, hsecond⟩ :=
      yields_resolve_passes ⟨es, hyields⟩
    exact forall₂_attached hst labelled hasked hfirst (fun _ hp => hp) hsecond
  · rintro x rfl
    obtain ⟨rs, hraise, hfailures, _⟩ := yields_resolve_error hst ⟨es, hyields⟩
    obtain ⟨t, ht⟩ := List.exists_mem_of_ne_nil _ (failures_ne_nil_of_raise? hraise).1
    obtain ⟨d, hd, e, he, _⟩ := (hfailures t).mp ht
    exact ⟨d, hd, e, he⟩

end Batch
end BuildAnalysis

/-! An alias of a setting in another package, and the setting itself. -/

namespace BuildAnalysis.AttachmentSample

open BuiltinRules.AliasSample

theorem nodup_actual :
    ((Rule.constraintsDecl :: [.ofDecl (.dep "actual")]).map fun a => a.name).Nodup := by decide

/-- Stands for the setting of another package. -/
def away : Target :=
  { label := binLabel
    kind := .rule (rule BuiltinRules.aliasId [.ofDecl (.dep "actual")] nodup_actual)
    values := [("actual", .label optLabel)] }

def awayPackage : Package where
  label := binLabel.package
  targets := [away]
  owned := by decide
  distinct := by decide

/-- What the alias is analyzed in is trimmed for the setting. -/
def trimmed : Configuration := .ofOptions (optimized.options.trim ∅)

def deps : List Dependency :=
  [{ kind := .attribute "deps", label := binLabel, configuration := some optimized },
    { kind := .attribute "deps", label := optLabel, configuration := some trimmed }]

def history : List (Engine.Call analysisSpace) :=
  [loading [package, awayPackage],
    .compute compute {} true (.target ⟨binLabel, some optimized.key, none⟩)]

def session : AnalysisSession := Engine.Session.after start history

def resolved : Except Engine.Suspension (Except Abort (List AnalyzedTarget) × Findings) :=
  (((Batch.resolve binLabel none deps).runFrom {}).run.run
    (Engine.nestWithin compute {}) { session := session }).1

theorem history_proper : ∀ call ∈ history, call.Proper compute :=
  List.forall_mem_cons.mpr ⟨loading_proper _, List.forall_mem_singleton.mpr compute_interrupts⟩

theorem labelled : Labelled session.store :=
  AggregationSample.labelled_of_all (by decide +kernel)

theorem resolved_eq_ok : ∃ as f, resolved = .ok (.ok as, f) ∧
    as.map (fun a => (a.target, a.configuration)) = [(opt, some trimmed), (opt, some trimmed)] := by
  have hmap : (Staged.ended? resolved).map
      (fun p => p.1.map fun a => (a.target, a.configuration)) =
        some [(opt, some trimmed), (opt, some trimmed)] := by
    decide +kernel
  obtain ⟨⟨as, f⟩, hrun, hmap⟩ := Option.map_eq_some_iff.mp hmap
  exact ⟨as, f, Staged.ended?_eq_some hrun, hmap⟩

theorem resolved_targets_attached_away : ∃ as f, resolved = .ok (.ok as, f) ∧
    as.map (fun a => (a.target, a.configuration)) = [(opt, some trimmed), (opt, some trimmed)] ∧
    Labelled session.store ∧ List.Forall₂ (Batch.Attached session.store) deps as ∧
    Batch.NeverMisses session.store deps := by
  obtain ⟨as, f, hrun, hmap⟩ := resolved_eq_ok
  obtain ⟨hok, _, hmisses⟩ :=
    Batch.resolved_targets_attached rfl history_proper rfl labelled hrun
  exact ⟨as, f, hrun, hmap, labelled, hok as rfl, hmisses⟩

end BuildAnalysis.AttachmentSample
