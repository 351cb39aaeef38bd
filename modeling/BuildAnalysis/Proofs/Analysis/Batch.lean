import BuildAnalysis.Proofs.Analysis.Cache

/-!
# Batches and conditions on a store

A batch that is resolved consists of the cached values of the dependencies, in their order. So a
condition turns out as the cached value of its target says, in the configuration of the target that
consults it.
-/
namespace BuildAnalysis

open Engine (Store)

variable {st : Store analysisSpace} {f f' : Findings} {ks : List AnalysisKey}

theorem TargetFailure.Worst.add_failure (w : Worst) (f : TargetFailure) :
    (w.add f).failure ≠ none := by
  unfold add
  cases w.failure with
  | none => simp
  | some g =>
      dsimp only
      split <;> simp

theorem TargetFailure.worst_eq_none {fs : List TargetFailure} (h : (worst fs).failure = none) :
    fs = [] := by
  have hfold : ∀ (fs : List TargetFailure) (w : Worst), w.failure ≠ none →
      (fs.foldl Worst.add w).failure ≠ none := by
    intro fs
    induction fs with
    | nil => exact fun w hw => hw
    | cons f fs ih => exact fun w _ => ih _ (w.add_failure f)
  cases fs with
  | nil => rfl
  | cons f fs => exact absurd h (hfold fs _ (Worst.add_failure {} f))

namespace Resolved

variable {α : Type}

theorem eq_map_founds {rs : List (Resolved α)} (h : failures rs = []) :
    rs = (founds rs).map found := by
  induction rs with
  | nil => rfl
  | cons r rs ih =>
      cases r with
      | found a => exact congrArg (found a :: ·) (ih h)
      | failed e reported => cases h

theorem failures_map_found (as : List α) : failures (as.map found) = [] := by
  induction as with
  | nil => rfl
  | cons a as ih => exact ih

end Resolved

namespace Batch

variable {α : Type} {owner : Label} {configuration : Option ConfigurationKey}

theorem failures_of_raise?_eq_none {causes : Causes} {rs : List (Resolved α)}
    (h : raise? owner configuration causes rs = none) : Resolved.failures rs = [] :=
  TargetFailure.worst_eq_none (Option.map_eq_none_iff.mp h)

theorem yields_settle_ok {rs : List (Resolved α)} {as : List α}
    (h : Staged.Yields st f (settle owner configuration rs) (.ok as) f' ks) :
    rs = as.map Resolved.found := by
  unfold settle at h
  have h := (Staged.Yields.of_modify_bind h).of_get_bind
  split at h
  next => cases (h.of_throw).1
  next hraise =>
    obtain ⟨has, _, _⟩ := h.of_pure
    obtain rfl := Except.ok.inj has
    exact Resolved.eq_map_founds (failures_of_raise?_eq_none hraise)

theorem yields_settle_findings {rs : List (Resolved α)} {as : List α}
    (h : Staged.Yields st f (settle owner configuration rs) (.ok as) f' ks) : f' = f := by
  have hnone : Resolved.failures rs = [] := by
    rw [yields_settle_ok h, Resolved.failures_map_found]
  unfold settle at h
  have h := (Staged.Yields.of_modify_bind h).of_get_bind
  split at h
  next => cases h.of_throw.1
  next =>
    obtain ⟨_, rfl, _⟩ := h.of_pure
    simp only [causes, hnone, List.foldl_nil]

theorem yields_settle_error {rs : List (Resolved α)} {x : Abort}
    (h : Staged.Yields st f (settle owner configuration rs) (.error x) f' ks) :
    raise? owner configuration f'.causes rs = some x ∧ f'.causes = causes f.causes rs := by
  unfold settle at h
  have h := (Staged.Yields.of_modify_bind h).of_get_bind
  split at h
  next y hraise =>
    obtain ⟨hx, rfl, _⟩ := h.of_throw
    obtain rfl := Except.error.inj hx
    exact ⟨hraise, rfl⟩
  next => cases h.of_pure.1

theorem lookup_eq_ok {d : Dependency} {v : TargetValue} {loaded : Except Failure Package}
    {t : Target} (h : lookup d v loaded = .ok t) : Package.lookup loaded v.label.name = .ok t := by
  unfold lookup at h
  cases hlookup : Package.lookup loaded v.label.name with
  | error e =>
      rw [hlookup] at h
      cases h
  | ok u =>
      rw [hlookup] at h
      exact congrArg _ (Except.ok.inj h)

theorem lookup_eq_error {d : Dependency} {v : TargetValue} {loaded : Except Failure Package}
    {e : TargetFailure} (h : lookup d v loaded = .error e) :
    ∃ x, Package.lookup loaded v.label.name = .error x := by
  unfold lookup at h
  cases hlookup : Package.lookup loaded v.label.name with
  | error x => exact ⟨x, rfl⟩
  | ok t =>
      rw [hlookup] at h
      cases h

/-- What the first pass finds is the value, and the target if the value is of the package asked
for. -/
theorem firstLook_eq_found {d : Dependency} {value : Except Failure TargetValue}
    {loaded : Except Failure Package} {p : PartialTarget}
    (h : firstLook d value loaded = .found p) :
    value = .ok p.value ∧ ∀ t, p.target = some t → p.value.label.package = d.label.package ∧
      Package.lookup loaded p.value.label.name = .ok t := by
  unfold firstLook at h
  split at h
  next => cases h
  next v =>
    dsimp only at h
    split at h
    next hpackage =>
      split at h
      next t ht =>
        cases h
        refine ⟨rfl, fun u hu => ?_⟩
        obtain rfl := Option.some.inj hu
        exact ⟨hpackage, lookup_eq_ok ht⟩
      next => cases h
    next =>
      cases h
      exact ⟨rfl, fun t ht => by cases ht⟩

/-- The second pass keeps the value and looks up the target if the first did not. -/
theorem secondLook_eq_found {packages : List (PackagePath × Except Failure Package)}
    {configurations : List (ConfigurationKey × Configuration)} {d : Dependency}
    {p : PartialTarget} {a : AnalyzedTarget}
    (h : secondLook packages configurations d p = .found a) :
    a.value = p.value ∧ (p.target = some a.target ∨ p.target = none ∧
      Package.lookup (Package.among packages p.value.label) p.value.label.name =
        .ok a.target) := by
  unfold secondLook at h
  dsimp only at h
  split at h
  next ht =>
    cases h
    exact ⟨rfl, .inl ht⟩
  next ht =>
    split at h
    next t hlookup =>
      cases h
      exact ⟨rfl, .inr ⟨ht, lookup_eq_ok hlookup⟩⟩
    next => cases h

/-- The first pass fails on a value that is a failure, which has been reported, and where the
package asked for does not have the target of the value. -/
theorem firstLook_eq_failed {d : Dependency} {value : Except Failure TargetValue}
    {loaded : Except Failure Package} {e : TargetFailure} {reported : Bool}
    (h : firstLook d value loaded = .failed e reported) :
    (∃ x, value = .error x ∧ e = x.toTargetFailure d.label d.configurationKey) ∨
    ∃ v x, value = .ok v ∧ v.label.package = d.label.package ∧
      Package.lookup loaded v.label.name = .error x ∧ reported = false := by
  unfold firstLook at h
  split at h
  next x =>
    cases h
    exact .inl ⟨x, rfl, rfl⟩
  next v =>
    dsimp only at h
    split at h
    next hpackage =>
      split at h
      next => cases h
      next f hlookup =>
        cases h
        obtain ⟨x, hx⟩ := lookup_eq_error hlookup
        exact .inr ⟨v, x, rfl, hpackage, hx, rfl⟩
    next => cases h

theorem secondLook_eq_failed {packages : List (PackagePath × Except Failure Package)}
    {configurations : List (ConfigurationKey × Configuration)} {d : Dependency}
    {p : PartialTarget} {e : TargetFailure} {reported : Bool}
    (h : secondLook packages configurations d p = .failed e reported) :
    p.target = none ∧ reported = false ∧ ∃ x,
      Package.lookup (Package.among packages p.value.label) p.value.label.name = .error x := by
  unfold secondLook at h
  dsimp only at h
  split at h
  next => cases h
  next hnone =>
    split at h
    next => cases h
    next f hlookup =>
      cases h
      exact ⟨hnone, rfl, lookup_eq_error hlookup⟩

/-- What the first pass found of a dependency is cached. -/
def FirstLooked (st : Store analysisSpace) (d : Dependency) (p : PartialTarget) : Prop :=
  st.value? (.target d.key) = some (.ok p.value) ∧
    ∀ t, p.target = some t → TargetAt st p.value.label t

/-- The target of a value is looked up in its package. -/
def LookedUpIn (st : Store analysisSpace)
    (packages : List (PackagePath × Except Failure Package)) (p : PartialTarget) : Prop :=
  p.target = none → LookedUp st p.value.label
    (Package.lookup (Package.among packages p.value.label) p.value.label.name)

/-- A dependency has a cached value, of a target that the cached packages have. -/
def Analyzed (st : Store analysisSpace) (d : Dependency) (a : AnalyzedTarget) : Prop :=
  st.value? (.target d.key) = some (.ok a.value) ∧ TargetAt st a.value.label a.target

/-- What the first pass makes of dependencies, one by one: it looks at the cached value and the
cached package of each. -/
def FirstPass (st : Store analysisSpace) (deps : List Dependency)
    (rs : List (Resolved PartialTarget)) : Prop :=
  List.Forall₂ (fun d r => ∃ v l, st.value? (.target d.key) = some v ∧
    st.value? (.package d.label.package) = some l ∧ r = firstLook d v l) deps rs

theorem forall₂_firstLook {deps : List Dependency} {values : List (Except Failure TargetValue)}
    {loaded : List (Except Failure Package)}
    (hvalues : st.Reads (S := analysisSpace) AnalysisKey.target (fun _ r => r)
      (deps.map Dependency.key) values)
    (hloaded : st.Reads (S := analysisSpace) AnalysisKey.package (fun _ r => r)
      (deps.map fun d => d.label.package) loaded) :
    FirstPass st deps ((deps.zip (values.zip loaded)).map fun e => firstLook e.1 e.2.1 e.2.2) := by
  induction deps generalizing values loaded with
  | nil => exact .nil
  | cons d deps ih =>
      cases hvalues with
      | cons hv hvalues =>
        cases hloaded with
        | cons hl hloaded =>
          obtain ⟨v, hv, rfl⟩ := hv
          obtain ⟨l, hl, rfl⟩ := hl
          exact .cons ⟨_, _, hv, hl, rfl⟩ (ih hvalues hloaded)

theorem FirstPass.looked {deps : List Dependency} {partials : List PartialTarget}
    (h : FirstPass st deps (partials.map Resolved.found)) :
    List.Forall₂ (FirstLooked st) deps partials := by
  refine (List.forall₂_map_right_iff.mp h).imp fun d p ⟨v, l, hv, hl, hfound⟩ => ?_
  obtain ⟨rfl, htarget⟩ := firstLook_eq_found hfound.symm
  refine ⟨hv, fun t ht => ?_⟩
  obtain ⟨hpackage, hlookup⟩ := htarget t ht
  exact lookedUp_ok.mp ⟨l, hpackage ▸ hl, hlookup⟩

theorem forall₂_analyzed {packages : List (PackagePath × Except Failure Package)}
    {configurations : List (ConfigurationKey × Configuration)} {deps : List Dependency}
    {partials : List PartialTarget} {as : List AnalyzedTarget}
    (hfirst : List.Forall₂ (FirstLooked st) deps partials)
    (hpackages : ∀ p ∈ partials, LookedUpIn st packages p)
    (hsecond : (deps.zip partials).map (fun e => secondLook packages configurations e.1 e.2) =
      as.map Resolved.found) : List.Forall₂ (Analyzed st) deps as := by
  induction hfirst generalizing as with
  | nil =>
      cases as with
      | nil => exact .nil
      | cons a as => cases hsecond
  | @cons d p deps partials hp _ ih =>
      cases as with
      | nil => cases hsecond
      | cons a as =>
        obtain ⟨hfound, hsecond⟩ := List.cons.inj hsecond
        obtain ⟨hvalue, htarget⟩ := secondLook_eq_found hfound
        refine .cons ⟨by rw [hvalue]; exact hp.1, ?_⟩
          (ih (fun q hq => hpackages q (List.mem_cons_of_mem _ hq)) hsecond)
        rw [hvalue]
        rcases htarget with ht | ⟨ht, hlookup⟩
        · exact hp.2 _ ht
        · exact lookedUp_ok.mp (hlookup ▸ hpackages p List.mem_cons_self ht)

/-- What the second pass has asked for: packages and configurations. -/
def SecondAsked (st : Store analysisSpace) (ps : List PartialTarget)
    (packages : List (PackagePath × Except Failure Package))
    (configurations : List (ConfigurationKey × Configuration)) : Prop :=
  st.Reads (S := analysisSpace) AnalysisKey.package (fun p r => (p, r)) (packagesWanted ps)
      packages ∧
    st.Reads (S := analysisSpace) AnalysisKey.configuration (fun k c => (k, c))
      (configurationsWanted ps) configurations

theorem yields_requestMissing {ps : List PartialTarget}
    {r : Except Abort (List (PackagePath × Except Failure Package) ×
      List (ConfigurationKey × Configuration))}
    (h : Staged.Yields st f (requestMissing ps) r f' ks) :
    ∃ p, r = .ok p ∧ f' = f ∧ SecondAsked st ps p.1 p.2 := by
  unfold requestMissing at h
  dsimp only at h
  split at h
  next hempty =>
    obtain ⟨hpackages, hconfigurations⟩ := Bool.and_eq_true_iff.mp hempty
    obtain ⟨hr, hf, _⟩ := h.of_pure
    refine ⟨_, hr, hf, ?_⟩
    rw [SecondAsked, List.isEmpty_iff.mp hpackages, List.isEmpty_iff.mp hconfigurations]
    exact ⟨.nil, .nil⟩
  next =>
    obtain ⟨p, _, hrequest, hr, hf⟩ := Staged.Yields.of_request h
    obtain ⟨_, hpackages, hconfigurations⟩ := Engine.Demand.Yields.of_values₂ hrequest
    exact ⟨p, hr, hf, hpackages, hconfigurations⟩

theorem SecondAsked.lookedUpIn {ps : List PartialTarget}
    {packages : List (PackagePath × Except Failure Package)}
    {configurations : List (ConfigurationKey × Configuration)}
    (h : SecondAsked st ps packages configurations) {p : PartialTarget} (hp : p ∈ ps) :
    LookedUpIn st packages p := fun hnone =>
  lookedUp_among h.1 (Listing.mem_distinct.mpr (List.mem_map.mpr
    ⟨p, List.mem_filter.mpr ⟨hp, by rw [hnone]; rfl⟩, rfl⟩))

/-- How a batch is resolved: unless it is empty, the values of its dependencies are noted, and then it
fails where the first pass is settled or ends as the second is settled, which looks for what the
first has left open. -/
theorem yields_resolve {deps : List Dependency} {r : Except Abort (List AnalyzedTarget)}
    (h : Staged.Yields st f (resolve owner configuration deps) r f' ks) :
    (deps = [] ∧ r = .ok [] ∧ f' = f) ∨
    ∃ values rs, (∀ v, v ∈ values ↔ ∃ d ∈ deps, st.value? (.target d.key) = some v) ∧
      FirstPass st deps rs ∧ (∀ d ∈ deps, AnalysisKey.target d.key ∈ ks) ∧
      ((∃ x, r = .error x ∧ ∃ ks₁, Staged.Yields st (notePackages values f)
        (settle owner configuration rs) (.error x) f' ks₁) ∨
      ∃ partials packages configurations f₁, SecondAsked st partials packages configurations ∧
        (∃ ks₁, Staged.Yields st (notePackages values f) (settle owner configuration rs)
          (.ok partials) f₁ ks₁) ∧
        ∃ ks₂, Staged.Yields st f₁ (settle owner configuration ((deps.zip partials).map fun e =>
          secondLook packages configurations e.1 e.2)) r f' ks₂) := by
  unfold resolve at h
  split at h
  next hempty =>
    obtain ⟨hr, hf, _⟩ := h.of_pure
    exact .inl ⟨List.isEmpty_iff.mp hempty, hr, hf⟩
  next =>
    obtain ⟨⟨values, loaded⟩, _, _, _, hrequest, h, hall⟩ := Staged.Yields.of_request_bind h
    obtain ⟨hks, hvalues, hloaded⟩ := Engine.Demand.Yields.of_values₂ hrequest
    have hrequested : ∀ d ∈ deps, AnalysisKey.target d.key ∈ ks := fun d hd => by
      rw [hall, hks]
      exact List.mem_append_left _ (List.mem_append_left _
        (List.mem_map_of_mem (List.mem_map_of_mem hd)))
    have h := Staged.Yields.of_modify_bind h
    have hcached : ∀ v, v ∈ values ↔ ∃ d ∈ deps, st.value? (.target d.key) = some v := by
      refine fun v => ⟨fun hv => ?_, fun ⟨d, hd, hvalue⟩ => ?_⟩
      · obtain ⟨_, hl, _, hvalue, rfl⟩ := Engine.exists_of_mem_right hvalues hv
        obtain ⟨d, hd, rfl⟩ := List.mem_map.mp hl
        exact ⟨d, hd, hvalue⟩
      · obtain ⟨_, hw, _, hvalue', rfl⟩ :=
          Engine.exists_of_mem_left hvalues (List.mem_map_of_mem (f := Dependency.key) hd)
        exact Option.some.inj (hvalue.symm.trans hvalue') ▸ hw
    refine .inr ⟨values, _, hcached, forall₂_firstLook hvalues hloaded, hrequested, ?_⟩
    rcases h.of_bind with ⟨partials, f₁, _, _, hfirst, h, _⟩ | ⟨x, hfirst, hr⟩
    · rcases h.of_bind with ⟨p, _, _, _, hmissing, hsecond, _⟩ | ⟨_, hmissing, _⟩
      · obtain ⟨_, hp, rfl, hasked⟩ := yields_requestMissing hmissing
        obtain rfl := Except.ok.inj hp
        exact .inr ⟨partials, _, _, _, hasked, ⟨_, hfirst⟩, _, hsecond⟩
      · obtain ⟨_, hp, _⟩ := yields_requestMissing hmissing
        cases hp
    · exact .inl ⟨x, hr, _, hfirst⟩

/-- A batch that is resolved consists of the cached values of its dependencies, with their
targets. -/
theorem yields_resolve_ok {deps : List Dependency} {as : List AnalyzedTarget}
    (h : Staged.Yields st f (resolve owner configuration deps) (.ok as) f' ks) :
    List.Forall₂ (Analyzed st) deps as := by
  rcases yields_resolve h with ⟨rfl, has, _⟩ | ⟨_, rs, _, hpass, _, ⟨_, hx, _⟩ |
    ⟨partials, _, _, _, hasked, ⟨_, hfirst⟩, _, hsecond⟩⟩
  · obtain rfl := Except.ok.inj has
    exact .nil
  · cases hx
  · rw [yields_settle_ok hfirst] at hpass
    exact forall₂_analyzed hpass.looked (fun _ => hasked.lookedUpIn) (yields_settle_ok hsecond)

end Batch

namespace Conditions

variable {owner : Label} {c : Configuration}

theorem ofAnalyzed_eq_ok {analyzed : List (Label × AnalyzedTarget)}
    {ms : List (Label × ConditionMatch)} {k : ConfigurationKey}
    (h : ofAnalyzed owner k analyzed = .ok ms) :
    List.Forall₂ (fun e m => m.1 = e.1 ∧ e.2.providers.condition? = some m.2) analyzed ms := by
  induction analyzed generalizing ms with
  | nil => cases h; exact .nil
  | cons e analyzed ih =>
      obtain ⟨key, t⟩ := e
      simp only [ofAnalyzed] at h
      split at h
      next => cases h
      next m hm =>
        split at h
        next => cases h
        next ms' hms =>
          cases h
          exact .cons ⟨rfl, hm⟩ (ih hms)

/-- A condition turned out as the cached value of its target, in a configuration, says. -/
def Recorded (st : Store analysisSpace) (c : Configuration) (key : Label) (m : ConditionMatch) :
    Prop :=
  ∃ v, st.value? (.target ⟨key, some c.key, none⟩) = some (.ok v) ∧
    v.providers.condition? = some m

theorem find?_recorded {keys : List Label} {values : List AnalyzedTarget}
    {ms : List (Label × ConditionMatch)}
    (hvalues : List.Forall₂ (fun d a => st.value? (.target d.key) = some (.ok a.value))
      (keys.map (dependency c)) values)
    (hms : List.Forall₂ (fun e m => m.1 = e.1 ∧ e.2.providers.condition? = some m.2)
      (keys.zip values) ms) {key : Label} (hkey : key ∈ keys) :
    ∃ m, Listing.find? key ms = some m ∧ Recorded st c key m := by
  induction keys generalizing values ms with
  | nil => cases hkey
  | cons k keys ih =>
      cases hvalues with
      | cons hv hvalues =>
        cases hms with
        | @cons _ m _ ms hm hms =>
          obtain ⟨hlabel, hm⟩ := hm
          by_cases hk : k = key
          · subst hk
            exact ⟨m.2, by simp [Listing.find?, hlabel], _, hv, hm⟩
          · obtain ⟨m', hfind, hrecorded⟩ :=
              ih hvalues hms ((List.mem_cons.mp hkey).resolve_left (Ne.symm hk))
            have hne : ¬ m.1 = key := fun h => hk (hlabel.symm.trans h)
            exact ⟨m', by rw [Listing.find?, if_neg hne, hfind], hrecorded⟩

theorem yields_ofTarget {t : Target} {configuration : Option Configuration} {conds : Conditions}
    (h : Staged.Yields st f (ofTarget t configuration) (.ok conds) f' ks) :
    ((configuration = none ∨ t.selectKeys = []) ∧ f' = f) ∨
    ∃ cfg values ks₁, configuration = some cfg ∧
      Staged.Yields st f (Batch.resolve t.label (some cfg.key) (t.selectKeys.map (dependency cfg)))
        (.ok values) f' ks₁ ∧
      ofAnalyzed t.label cfg.key (t.selectKeys.zip values) = .ok conds.entries := by
  unfold ofTarget at h
  cases configuration with
  | none =>
      obtain ⟨_, rfl, _⟩ := h.of_pure
      exact .inl ⟨.inl rfl, rfl⟩
  | some cfg =>
      cases hkeys : t.selectKeys with
      | nil =>
          rw [hkeys] at h
          obtain ⟨_, rfl, _⟩ := h.of_pure
          exact .inl ⟨.inr rfl, rfl⟩
      | cons key keys =>
          rw [hkeys] at h
          obtain ⟨values, f₁, _, _, hresolve, hrest, _⟩ := h.of_bind_ok
          obtain ⟨ms, f₂, _, _, hms, hlast, _⟩ := hrest.of_bind_ok
          obtain ⟨hentries, rfl, _⟩ := hms.of_ofExcept
          obtain ⟨hconds, rfl, _⟩ := hlast.of_pure
          obtain rfl := Except.ok.inj hconds
          rcases hresolve.of_tryCatch with ⟨_, hresolve, hvalues⟩ | ⟨_, _, _, _, _, hthrow, _⟩
          · obtain rfl := Except.ok.inj hvalues
            exact .inr ⟨cfg, values, _, rfl, hresolve, hentries.symm⟩
          · cases hthrow.of_throw.1

theorem yields_ofTarget_ok {t : Target} {conds : Conditions}
    (h : Staged.Yields st f (ofTarget t (some c)) (.ok conds) f' ks) {key : Label}
    (hkey : key ∈ t.selectKeys) :
    ∃ m, conds.get? key = some m ∧ Recorded st c key m := by
  rcases yields_ofTarget h with ⟨hnone | hnone, _⟩ | ⟨cfg, values, _, hcfg, hresolve, hms⟩
  · cases hnone
  · rw [hnone] at hkey
    cases hkey
  · obtain rfl := Option.some.inj hcfg
    exact find?_recorded ((Batch.yields_resolve_ok hresolve).imp fun _ _ h => h.1)
      (ofAnalyzed_eq_ok hms) hkey

end Conditions
end BuildAnalysis
