import Mathlib.Logic.Relation
import BuildAnalysis.Proofs.Analysis.AliasChain
import BuildAnalysis.Proofs.Analysis.Untroubled

/-!
# Recorded packages

An evaluation that records packages notes those of its own label and of the labels of its edges when
they are loaded, and takes over what the values of its conditions and dependencies have recorded.
Nothing else adds a package. So the value of a target has recorded the package of every target that
is reached from it through dependencies and conditions.
-/
namespace BuildAnalysis

open Engine (Store)

instance : Std.LawfulEqOrd PackagePath where
  compare_self := Std.ReflCmp.compare_self
  eq_of_compare := by
    rintro ⟨p, _, _⟩ ⟨q, _, _⟩ h
    obtain rfl : p = q := Std.LawfulEqOrd.eq_of_compare h
    rfl

namespace Findings

/-- If packages are recorded, then later findings have the packages of the earlier ones and exactly
the new ones besides. -/
def Gains (f f' : Findings) (new : PackagePath → Prop) : Prop :=
  ∀ ps, f.packages = some ps → ∃ qs, f'.packages = some qs ∧ ∀ q, q ∈ qs ↔ q ∈ ps ∨ new q

variable {f g f' : Findings} {new new' : PackagePath → Prop}

theorem gains_of_eq (h : f'.packages = f.packages) : f.Gains f' fun _ => False :=
  fun ps hps => ⟨ps, h.trans hps, by simp⟩

theorem Gains.congr (h : f.Gains f' new) (hnew : ∀ q, new q ↔ new' q) : f.Gains f' new' := by
  intro ps hps
  obtain ⟨qs, hqs, hmem⟩ := h ps hps
  exact ⟨qs, hqs, fun q => by rw [hmem, hnew]⟩

theorem Gains.trans (h : f.Gains g new) (h' : g.Gains f' new') :
    f.Gains f' fun q => new q ∨ new' q := by
  intro ps hps
  obtain ⟨qs, hqs, hmem⟩ := h ps hps
  obtain ⟨rs, hrs, hmem'⟩ := h' qs hqs
  exact ⟨rs, hrs, fun q => by rw [hmem', hmem, or_assoc]⟩

theorem Gains.of_eq_right (h : f.Gains g new) (heq : f'.packages = g.packages) :
    f.Gains f' new := by
  intro ps hps
  rw [heq]
  exact h ps hps

theorem gains_addPackage (f : Findings) (p : PackagePath) : f.Gains (f.addPackage p) (· = p) := by
  intro ps hps
  exact ⟨ps.insert p, by rw [addPackage, hps]; rfl, fun q => by rw [SortedSet.mem_insert, or_comm]⟩

theorem gains_addPackages (f : Findings) (r : Option (SortedSet PackagePath)) :
    f.Gains (f.addPackages r) fun q => ∃ ps, r = some ps ∧ q ∈ ps := by
  intro ps hps
  cases r with
  | none => exact ⟨ps, by rw [addPackages, hps]; rfl, by simp⟩
  | some more => exact ⟨ps.union more, by rw [addPackages, hps]; rfl, by simp⟩

theorem gains_foldl {α : Type} {step : Findings → α → Findings} {P : α → PackagePath → Prop}
    (h : ∀ (f : Findings) a, f.Gains (step f a) (P a)) (as : List α) (f : Findings) :
    f.Gains (as.foldl step f) fun q => ∃ a ∈ as, P a q := by
  induction as generalizing f with
  | nil => exact (gains_of_eq rfl).congr (by simp)
  | cons a as ih => exact ((h f a).trans (ih _)).congr (by simp)

end Findings

def RecordedBy (st : Store analysisSpace) (k : TargetKey) (q : PackagePath) : Prop :=
  ∃ v ps, st.value? (.target k) = some (.ok v) ∧ v.packages = some ps ∧ q ∈ ps

section Stages

variable {services : Option Services} {st : Store analysisSpace} {f f' : Findings}
  {ks : List AnalysisKey}

namespace Batch

variable {owner : Label} {configuration : Option ConfigurationKey}

theorem notePackages_gains (values : List (Except Failure TargetValue)) (f : Findings) :
    f.Gains (notePackages values f) fun q => ∃ v ∈ values, ∃ w ps,
      v = .ok w ∧ w.packages = some ps ∧ q ∈ ps := by
  refine Findings.gains_foldl (P := fun v q => ∃ w ps, v = .ok w ∧ w.packages = some ps ∧ q ∈ ps)
    (fun f v => ?_) values f
  cases v with
  | error e => exact (Findings.gains_of_eq rfl).congr (by simp)
  | ok w => exact (f.gains_addPackages w.packages).congr (by simp)

/-- A batch adds what the values of its dependencies have recorded. -/
theorem yields_resolve_gains {deps : List Dependency} {as : List AnalyzedTarget}
    (h : Staged.Yields st f (resolve owner configuration deps) (.ok as) f' ks) :
    f.Gains f' fun q => ∃ d ∈ deps, RecordedBy st d.key q := by
  rcases yields_resolve h with ⟨rfl, _, rfl⟩ | ⟨values, rs, hcached, _, _, ⟨_, hx, _⟩ |
    ⟨partials, _, _, _, _, ⟨_, hfirst⟩, _, hsecond⟩⟩
  · exact (Findings.gains_of_eq rfl).congr (by simp)
  · cases hx
  · obtain rfl := yields_settle_findings hsecond
    obtain rfl := yields_settle_findings hfirst
    refine (notePackages_gains values f).congr fun q => ⟨?_, ?_⟩
    · rintro ⟨_, hv, w, ps, rfl, hps, hq⟩
      obtain ⟨d, hd, hvalue⟩ := (hcached _).mp hv
      exact ⟨d, hd, w, ps, hvalue, hps, hq⟩
    · rintro ⟨d, hd, w, ps, hw, hps, hq⟩
      exact ⟨_, (hcached _).mpr ⟨d, hd, hw⟩, w, ps, rfl, hps, hq⟩

end Batch

theorem Conditions.yields_ofTarget_gains {t : Target} {c : Option Configuration}
    {conditions : Conditions} (h : Staged.Yields st f (ofTarget t c) (.ok conditions) f' ks) :
    f.Gains f' fun q => ∃ cfg, c = some cfg ∧ ∃ key ∈ t.selectKeys,
      RecordedBy st ⟨key, some cfg.key, none⟩ q := by
  rcases yields_ofTarget h with ⟨hnone, rfl⟩ | ⟨cfg, values, _, rfl, hresolve, _⟩
  · refine (Findings.gains_of_eq rfl).congr fun q => ⟨False.elim, ?_⟩
    rintro ⟨cfg, rfl, key, hkey, _⟩
    rw [hnone.resolve_left (Option.some_ne_none cfg)] at hkey
    cases hkey
  · refine (Batch.yields_resolve_gains hresolve).congr fun q => ?_
    simp [dependency, Dependency.key, Dependency.configurationKey]

namespace EdgeSource

variable {s : EdgeSource}

theorem noteLookup_gains (loaded : List (PackagePath × Except Failure Package)) (f : Findings)
    (e : Edge × Except Failure Target) : f.Gains (s.noteLookup loaded f e) fun q =>
      ∃ p, Listing.find? e.1.label.package loaded = some (.ok p) ∧ q = p.label := by
  unfold noteLookup
  cases Listing.find? e.1.label.package loaded with
  | none => cases e.2 <;> exact (Findings.gains_of_eq rfl).congr (by simp)
  | some r =>
      cases r with
      | error x => cases e.2 <;> exact (Findings.gains_of_eq rfl).congr (by simp)
      | ok p =>
          cases e.2 <;>
            exact ((f.gains_addPackage p.label).of_eq_right rfl).congr (by simp)

theorem yields_loadTargets_gains (labelled : Labelled st) {es : List Edge}
    {nodes : List (Edge × Target)} (h : Staged.Yields st f (s.loadTargets es) (.ok nodes) f' ks) :
    f.Gains f' fun q => ∃ e ∈ es, q = e.label.package ∧
      ∃ p, st.value? (.package e.label.package) = some (.ok p) := by
  obtain ⟨loaded, _, _, _, hrequest, h, _⟩ := Staged.Yields.of_request_bind h
  obtain ⟨_, hloaded⟩ := Engine.Demand.Yields.of_values hrequest
  obtain ⟨_, rfl, _⟩ := (Staged.Yields.of_modify_bind h).of_pure
  have hfind : ∀ e ∈ es, ∃ r, st.value? (.package e.label.package) = some r ∧
      Listing.find? e.label.package loaded = some r := fun e he =>
    hloaded.find? (Listing.mem_distinct.mpr
      (List.mem_map_of_mem (f := fun e : Edge => e.label.package) he))
  refine (Findings.gains_foldl (s.noteLookup_gains loaded) _ f).congr fun q => ⟨?_, ?_⟩
  · rintro ⟨_, hmem, p, hp, rfl⟩
    obtain ⟨e, he, rfl⟩ := List.mem_map.mp hmem
    obtain ⟨r, hr, hr'⟩ := hfind e he
    obtain rfl := Option.some.inj (hr'.symm.trans hp)
    exact ⟨e, he, labelled _ p hr, p, hr⟩
  · rintro ⟨e, he, rfl, p, hp⟩
    obtain ⟨r, hr, hr'⟩ := hfind e he
    obtain rfl := Option.some.inj (hr.symm.trans hp)
    exact ⟨_, List.mem_map_of_mem he, p, hr', (labelled _ p hp).symm⟩

theorem yields_dependencies_findings {nodes : List (Edge × Target)} {deps : List Dependency}
    (h : Staged.Yields st f (s.dependencies nodes) (.ok deps) f' ks) : f' = f := by
  unfold dependencies at h
  split at h
  next => exact h.of_pure.2.1
  next =>
    obtain ⟨_, f₁, _, _, hfragments, hrest, _⟩ := h.of_bind_ok
    obtain ⟨_, f₂, _, _, hexpanded, hrest, _⟩ := hrest.of_bind_ok
    obtain ⟨_, f₃, _, _, hconfigurations, hlast, _⟩ := hrest.of_bind_ok
    obtain ⟨_, _, _, _, rfl⟩ := Staged.Yields.of_request hfragments
    obtain ⟨_, rfl, _⟩ := hexpanded.of_ofExcept
    obtain ⟨_, _, _, _, rfl⟩ := Staged.Yields.of_request hconfigurations
    exact hlast.of_pure.2.1

/-- Aspects add no packages. -/
theorem yields_fanOut_gains {deps : List Dependency} {b : DependencyBundle}
    (h : Staged.Yields st f (s.fanOut deps) (.ok b) f' ks) :
    f.Gains f' fun q => ∃ d ∈ deps, RecordedBy st d.key q := by
  obtain ⟨values, f₁, _, _, hvalues, hrest, _⟩ := h.of_bind_ok
  obtain ⟨values', f₂, _, _, haspects, hlast, _⟩ := hrest.of_bind_ok
  obtain ⟨_, rfl, _⟩ := hlast.of_pure
  rcases yields_applyAspects haspects with ⟨_, _, rfl, _⟩ | ⟨_, hx, _⟩ | ⟨_, _, hx, _⟩
  · exact Batch.yields_resolve_gains hvalues
  · cases hx
  · cases hx

end EdgeSource

namespace TargetKey

variable {k : TargetKey} {x : Fan}

theorem yields_load_gains (hst : Consistent services st) (labelled : Labelled st)
    {loaded : Loaded} (h : Staged.Yields st f k.load (.ok loaded) f' ks) :
    f.Gains f' (· = k.label.package) := by
  obtain ⟨hpackage, _⟩ := yields_load hst h
  obtain ⟨_, _, _, _, _, hpackages, _⟩ := yields_load_noted h
  rw [labelled _ _ hpackage] at hpackages
  exact (f.gains_addPackage _).of_eq_right hpackages

theorem yields_toolchains_packages {loaded : Loaded} {contexts : Option ToolchainContexts}
    (h : Staged.Yields st f (k.toolchains loaded) (.ok contexts) f' ks) :
    f'.packages = f.packages := by
  unfold toolchains at h
  split at h
  next =>
    obtain ⟨resolved, f₁, _, _, hresolved, hrest, _⟩ := h.of_bind_ok
    obtain ⟨_, rfl, _⟩ := (Staged.Yields.of_modify_bind hrest).of_pure
    change f₁.packages = f.packages
    obtain ⟨groups, f₂, _, _, hgroups, hrest, _⟩ := hresolved.of_bind_ok
    obtain ⟨_, rfl, _⟩ := hgroups.of_ofExcept
    split at hrest
    next => rw [hrest.of_pure.2.1]
    next =>
      obtain ⟨results, _, _, _, _, hrest, _⟩ := Staged.Yields.of_request_bind hrest
      obtain ⟨cs, f₂, _, _, hcs, hlast, _⟩ := hrest.of_bind_ok
      rw [hlast.of_pure.2.1, hcs.of_ofExcept.2.1]
  next => rw [h.of_pure.2.1]

/-- Before the dependencies are evaluated the packages of the target and of its edges are added, and
those that the conditions have recorded. -/
theorem yields_prepare_gains (hst : Consistent services st) (labelled : Labelled st)
    (h : Staged.Yields st f k.prepare (.ok (some x)) f' ks) :
    f.Gains f' (fun q => (q = k.label.package ∨ ∃ cfg, x.loaded.configuration = some cfg ∧
      ∃ key ∈ x.loaded.target.selectKeys, RecordedBy st ⟨key, some cfg.key, none⟩ q) ∨
        ∃ e ∈ x.edges, q = e.label.package ∧
          ∃ p, st.value? (.package e.label.package) = some (.ok p)) ∧
      ∀ e ∈ x.edges, ∃ r, LookedUp st e.label r := by
  obtain ⟨loaded, f₁, _, _, hload, h, _⟩ := h.of_bind_ok
  split at h
  next =>
    obtain ⟨_, _, _, _, _, h, _⟩ := Staged.Yields.of_request_bind h
    cases (Staged.Yields.of_pure_ok h).1
  next =>
    obtain ⟨contexts, f₂, _, _, hcontexts, h, _⟩ := h.of_bind_ok
    obtain ⟨conditions, f₃, _, _, hconditions, h, _⟩ := h.of_bind_ok
    obtain ⟨es, f₄, _, _, hes, h, _⟩ := h.of_bind_ok
    obtain ⟨nodes, f₅, _, _, hnodes, h, _⟩ := h.of_bind_ok
    obtain ⟨deps, f₆, _, _, hdeps, h, _⟩ := h.of_bind_ok
    obtain ⟨hx, rfl, _⟩ := Staged.Yields.of_pure_ok h
    obtain rfl := Option.some.inj hx
    obtain ⟨_, hconditions⟩ := yields_consult_ok hconditions
    obtain ⟨_, rfl, _⟩ := hes.of_ofExcept
    obtain rfl := EdgeSource.yields_dependencies_findings hdeps
    obtain ⟨_, _, hlooked⟩ := EdgeSource.yields_loadTargets hnodes
    have hown := (yields_load_gains hst labelled hload).of_eq_right
      (yields_toolchains_packages hcontexts)
    refine ⟨(hown.trans (Conditions.yields_ofTarget_gains hconditions)).trans
      (EdgeSource.yields_loadTargets_gains labelled hnodes), fun e he => ?_⟩
    obtain ⟨r, hr, _⟩ := hlooked e he
    exact ⟨r, hr⟩

theorem yields_runImplementation_packages {i : RuleImplementation} {c : RuleContext}
    {output : RuleOutput}
    (h : Staged.Yields st f (k.runImplementation i c) (.ok output) f' ks) :
    f'.packages = f.packages := by
  obtain ⟨⟨result, events⟩, _, _, _, _, h, _⟩ := Staged.Yields.of_request_bind h
  cases result with
  | ok output' =>
      have h := Staged.Yields.of_modify_bind h
      split at h
      next => rw [h.of_pure.2.1]
      next => cases (Staged.Yields.of_throw h).1
  | error e =>
      dsimp only at h
      split at h
      all_goals
        have h := Staged.Yields.of_modify_bind h
        cases (Staged.Yields.of_throw h).1

theorem yields_build_packages {s : Services} {loaded : Loaded} {conditions : Conditions}
    {contexts : Option ToolchainContexts} {deps : DependencyBundle} {v : TargetValue}
    (h : Staged.Yields st f (k.build s loaded conditions contexts deps) (.ok v) f' ks) :
    f'.packages = f.packages := by
  unfold build at h
  split at h
  next => rw [h.of_pure.2.1]
  next =>
    split at h
    next => cases (Staged.Yields.of_throw h).1
    next =>
      obtain ⟨toolchains, f₁, _, _, htoolchains, hrest, _⟩ := h.of_bind_ok
      obtain ⟨output, f₂, _, _, houtput, hlast, _⟩ := hrest.of_bind_ok
      rw [hlast.of_ofExcept.2.1, yields_runImplementation_packages houtput,
        htoolchains.of_ofExcept.2.1]

end TargetKey
end Stages

namespace TargetKey

variable {services : Services} {st : Store analysisSpace} {k : TargetKey} {x : Fan}
  {v : TargetValue}

/-- Where a recorded package comes from: the target's own label, the label of an edge, the value of
a dependency, or that of a condition. -/
inductive Contributes (st : Store analysisSpace) (k : TargetKey) (x : Fan) (v : TargetValue)
    (q : PackagePath) : Prop
  | own (h : q = k.label.package)
  | edge {e : Edge} (he : e ∈ x.edges) (h : q = e.label.package)
  | dependency {d : TargetKey} (hd : d ∈ v.dependencies) (h : RecordedBy st d q)
  | condition {c : ConfigurationKey} {key : Label} (hc : k.configuration = some c)
      (hkey : key ∈ x.loaded.target.selectKeys) (h : RecordedBy st ⟨key, some c, none⟩ q)

/-- A target that gets through its dependencies has loaded the package of every edge: otherwise
there would be a cause. -/
theorem package_loaded_of_fanOut (hst : Consistent (some services) st) {f f₁ f₂ : Findings}
    {ks ls : List AnalysisKey} (hprepare : Staged.Yields st f k.prepare (.ok (some x)) f₁ ks)
    (looked : ∀ e ∈ x.edges, ∃ r, LookedUp st e.label r) {b : DependencyBundle}
    (hfan : Staged.Yields st f₁ (k.fanOut x) (.ok b) f₂ ls) {e : Edge} (he : e ∈ x.edges) :
    ∃ p, st.value? (.package e.label.package) = some (.ok p) := by
  obtain ⟨_, _, hcovers⟩ := yields_prepare hst hprepare
  obtain ⟨_, hnone⟩ := yields_fanOut_ok hfan
  obtain ⟨r, hr⟩ := looked e he
  cases r with
  | ok t =>
      obtain ⟨p, hp, _⟩ := lookedUp_ok.mp hr
      exact ⟨p, hp⟩
  | error y =>
      have hcause := k.fanOut_keeps x f₁ _ f₂ _ hfan _ (hcovers.edges e he y hr)
      rw [Causes.isEmpty_eq_false hcause] at hnone
      cases hnone

theorem mem_keys_iff {b : DependencyBundle} {deps : List Dependency}
    (h : b.entries.map Prod.fst = deps) (l : TargetKey) :
    l ∈ b.keys ↔ ∃ d ∈ deps, d.key = l := by
  rw [DependencyBundle.keys, Listing.mem_distinct, ← h]
  simp

/-- What an evaluation has gained when its value is built contributes to it, and nothing else
does. -/
theorem contributes_iff (configuration : x.loaded.configuration = k.configuration.map .mk)
    (dependencies : ∀ l, l ∈ v.dependencies ↔ ∃ d ∈ x.dependencies, d.key = l)
    (loaded : ∀ e ∈ x.edges, ∃ p, st.value? (.package e.label.package) = some (.ok p))
    {q : PackagePath} : (((q = k.label.package ∨ ∃ cfg, x.loaded.configuration = some cfg ∧
      ∃ key ∈ x.loaded.target.selectKeys, RecordedBy st ⟨key, some cfg.key, none⟩ q) ∨
        ∃ e ∈ x.edges, q = e.label.package ∧
          ∃ p, st.value? (.package e.label.package) = some (.ok p)) ∨
      ∃ d ∈ x.dependencies, RecordedBy st d.key q) ↔ Contributes st k x v q := by
  constructor
  · rintro (((hown | ⟨_, hcfg, key, hkey, hrecorded⟩) | ⟨e, he, hq, _⟩) | ⟨d, hd, hrecorded⟩)
    · exact .own hown
    · obtain ⟨c, hc, rfl⟩ := Option.map_eq_some_iff.mp (configuration.symm.trans hcfg)
      exact .condition hc hkey hrecorded
    · exact .edge he hq
    · exact .dependency ((dependencies _).mpr ⟨d, hd, rfl⟩) hrecorded
  · intro hq
    cases hq with
    | own h => exact .inl (.inl (.inl h))
    | edge he h => exact .inl (.inr ⟨_, he, h, loaded _ he⟩)
    | dependency hl hrecorded =>
        obtain ⟨d, hd, rfl⟩ := (dependencies _).mp hl
        exact .inr ⟨d, hd, hrecorded⟩
    | @condition c key hc hkey hrecorded =>
        exact .inl (.inl (.inr ⟨⟨c⟩, by rw [configuration, hc]; rfl, key, hkey, hrecorded⟩))

/-- The recorded packages of a target are those that contribute to it. -/
theorem packages_of_value? (hst : Consistent (some services) st) (labelled : Labelled st)
    (records : services.settings.storeTransitivePackages = true)
    (hv : st.value? (.target k) = some (.ok v)) (nonempty : v ≠ .empty k.label k.configuration) :
    ∃ x ps, k.FansOut st x ∧ (∀ l, l ∈ v.dependencies ↔ ∃ d ∈ x.dependencies, d.key = l) ∧
      v.packages = some ps ∧ ∀ q, q ∈ ps ↔ Contributes st k x v q := by
  obtain ⟨s, found, _, hs, h⟩ := value?_target hst hv
  obtain rfl := Option.some.inj hs
  rw [evaluate_eq_fanOut] at h
  obtain ⟨fan, f₁, _, _, hprepare, h, _⟩ := h.of_bind_ok
  cases fan with
  | none => exact absurd (Staged.Yields.of_pure_ok h).1 nonempty
  | some x =>
      obtain ⟨bundle, f₂, _, _, hfan, h, _⟩ := h.of_bind_ok
      obtain ⟨value, f₃, _, _, hbuild, h, _⟩ := h.of_bind_ok
      have h := Staged.Yields.of_get_bind h
      obtain ⟨hvalue, rfl, _⟩ := Staged.Yields.of_pure_ok h
      have hpackages : v.packages = found.packages := congrArg TargetValue.packages hvalue
      obtain ⟨⟨_, hdeps⟩, _⟩ := yields_fanOut_ok hfan
      have hkeys : ∀ l, l ∈ v.dependencies ↔ ∃ d ∈ x.dependencies, d.key = l := by
        rw [hvalue]
        exact mem_keys_iff (EdgeSource.yields_fanOut_supplied hdeps).1
      obtain ⟨hgains, hlooked⟩ := yields_prepare_gains hst labelled hprepare
      obtain ⟨ps, hps, hmem⟩ := ((hgains.trans (EdgeSource.yields_fanOut_gains hdeps)).of_eq_right
        (yields_build_packages hbuild)) ∅ (by rw [AnalysisKey.initial, records]; rfl)
      refine ⟨x, ps, ⟨_, _, _, hprepare⟩, hkeys, hpackages.trans hps, fun q => ?_⟩
      have hcontributes := contributes_iff (q := q) (yields_prepare hst hprepare).2.1 hkeys
        fun e he => package_loaded_of_fanOut hst hprepare hlooked hfan he
      rw [hmem, ← hcontributes]
      exact or_iff_right fun hq => by cases hq

theorem yields_fanOut_entry {f f' : Findings} {ks : List AnalysisKey} {b : DependencyBundle}
    (h : Staged.Yields st f (k.fanOut x) (.ok b) f' ks) {e : Dependency × AnalyzedTarget}
    (he : e ∈ b.entries) : (∃ w, st.value? (.target e.1.key) = some (.ok w) ∧
      e.2.label = w.label) ∧ AnalysisKey.target e.1.key ∈ ks := by
  obtain ⟨⟨_, hdeps⟩, _⟩ := yields_fanOut_ok h
  obtain ⟨own, hown, values, providers, _, _, hsame⟩ :=
    (EdgeSource.yields_fanOut_supplied hdeps).2 e he
  refine ⟨⟨own.value, hown.1, by rw [hsame]; rfl⟩, ?_⟩
  have hmem := fst_mem_of_fanOut h he
  obtain ⟨_, _, ks₁, _, hfan, _, rfl⟩ := h.of_bind_ok
  obtain ⟨_, _, ks₂, _, hresolve, _, rfl⟩ := hfan.of_bind_ok
  refine List.mem_append_left _ (List.mem_append_left _ ?_)
  rcases Batch.yields_resolve hresolve with ⟨hnil, _⟩ | ⟨_, _, _, _, hrequested, _⟩
  · rw [hnil] at hmem
    cases hmem
  · exact hrequested _ hmem

/-- A value has the label of its key or that of the value of a dependency, which was cached
before. -/
theorem label_of_value? (hst : Consistent (some services) st)
    (hv : st.value? (.target k) = some (.ok v)) : v.label = k.label ∨
      ∃ d ∈ v.dependencies, Store.rank (S := analysisSpace) st (.target d) < st.rank (.target k) ∧
        ∃ w, st.value? (.target d) = some (.ok w) ∧ v.label = w.label := by
  obtain ⟨deps, ks, _, hmem, hrequested, heval⟩ := AnalysisKey.evaluates_of_value? hst rfl hv
  rcases AnalysisKey.evaluates_target heval with
    ⟨hnone, _⟩ | ⟨s, _, found, _, h, ⟨_, rfl, hok, _⟩ | ⟨_, _, hfailed, _⟩⟩
  · cases hnone
  · obtain rfl := Except.ok.inj hok
    rw [evaluate_eq_fanOut] at h
    obtain ⟨fan, f₁, ks₁, ks₂, _, h, hall⟩ := h.of_bind_ok
    cases fan with
    | none =>
        obtain ⟨rfl, _, _⟩ := Staged.Yields.of_pure_ok h
        exact .inl rfl
    | some x =>
        obtain ⟨bundle, f₂, ks₃, ks₄, hfan, h, hrest⟩ := h.of_bind_ok
        obtain ⟨value, f₃, _, _, hbuild, h, _⟩ := h.of_bind_ok
        have h := Staged.Yields.of_get_bind h
        obtain ⟨rfl, _, _⟩ := Staged.Yields.of_pure_ok h
        rcases yields_build_label hbuild with hlabel | ⟨e, he, hlabel⟩
        · exact .inl hlabel
        · obtain ⟨⟨w, hw⟩, hfetched⟩ := yields_fanOut_entry hfan he
          refine .inr ⟨e.1.key, Listing.mem_distinct.mpr (List.mem_map_of_mem he),
            hst.rank_lt hmem ((hrequested _).mpr ?_), w, hw.1, hlabel.trans hw.2⟩
          rw [hall, hrest]
          exact List.mem_append_right _ (List.mem_append_left _ hfetched)
  · cases hfailed

/-- What the value of a target takes in: the values of its dependencies and of the conditions that
it consults. -/
inductive TakesIn (st : Store analysisSpace) (k : TargetKey) : TargetKey → Prop
  | dependency {v : TargetValue} {d : TargetKey} (value : st.value? (.target k) = some (.ok v))
      (mem : d ∈ v.dependencies) : TakesIn st k d
  | condition {v : TargetValue} {t : Target} {c : ConfigurationKey} {key : Label}
      (value : st.value? (.target k) = some (.ok v))
      (nonempty : v ≠ .empty k.label k.configuration) (target : TargetAt st k.label t)
      (configured : k.configuration = some c) (consulted : key ∈ t.selectKeys) :
      TakesIn st k ⟨key, some c, none⟩

theorem eq_of_reaches_of_empty {m : TargetKey}
    (hv : st.value? (.target k) = some (.ok (.empty k.label k.configuration)))
    (h : Relation.ReflTransGen (TakesIn st) k m) : m = k := by
  rcases h.cases_head with rfl | ⟨l, htakes, _⟩
  · rfl
  · cases htakes with
    | dependency value mem =>
        obtain rfl := Except.ok.inj (Option.some.inj (hv.symm.trans value))
        cases mem
    | condition value nonempty =>
        exact absurd (Except.ok.inj (Option.some.inj (value.symm.trans hv))) nonempty

section Closure

variable (hst : Consistent (some services) st) (labelled : Labelled st)
  (records : services.settings.storeTransitivePackages = true)
include hst labelled records

theorem own_recorded (hv : st.value? (.target k) = some (.ok v))
    (nonempty : v ≠ .empty k.label k.configuration) : RecordedBy st k k.label.package := by
  obtain ⟨x, ps, _, _, hps, hmem⟩ := packages_of_value? hst labelled records hv nonempty
  exact ⟨v, ps, hv, hps, (hmem _).mpr (.own rfl)⟩

/-- What is taken in has a value, and the package of its label and whatever it has recorded are
recorded. -/
theorem TakesIn.recorded {l : TargetKey} (h : TakesIn st k l)
    (hv : st.value? (.target k) = some (.ok v)) (nonempty : v ≠ .empty k.label k.configuration) :
    (∃ w, st.value? (.target l) = some (.ok w)) ∧ RecordedBy st k l.label.package ∧
      ∀ q, RecordedBy st l q → RecordedBy st k q := by
  obtain ⟨x, ps, hx, hkeys, hps, hmem⟩ := packages_of_value? hst labelled records hv nonempty
  have hrecorded : ∀ q, Contributes st k x v q → RecordedBy st k q := fun q hq =>
    ⟨v, ps, hv, hps, (hmem q).mpr hq⟩
  obtain ⟨p, t, conditions, contexts, es, hrests⟩ := restsOn_of_value? hst hv nonempty
  cases h with
  | @dependency v' _ value mem =>
      obtain rfl : v = v' := Except.ok.inj (Option.some.inj (hv.symm.trans value))
      refine ⟨hrests.dependencies l mem, hrecorded _ ?_, fun q hq =>
        hrecorded q (.dependency mem hq)⟩
      obtain ⟨d, hd, rfl⟩ := (hkeys l).mp mem
      obtain ⟨e, he, hbecomes⟩ := (hx.grounded hst).dependencies d hd
      exact .edge he (congrArg Label.package hbecomes.label)
  | @condition v' u c key value _ target configured consulted =>
      have ht : TargetAt st k.label t := ⟨p, hrests.package, hrests.target⟩
      obtain rfl := ht.eq target
      obtain ⟨m, _, w, hw, hcondition⟩ := hrests.consulted c configured key consulted
      obtain ⟨hown, _⟩ := hx.grounded hst
      obtain rfl := ht.eq hown
      have htaken : ∀ q, RecordedBy st ⟨key, some c, none⟩ q → RecordedBy st k q := fun q hq =>
        hrecorded q (.condition configured consulted hq)
      -- An empty value would not provide the condition.
      refine ⟨⟨w, hw⟩, htaken _ (own_recorded hst labelled records hw ?_), htaken⟩
      rintro rfl
      cases hcondition

/-- Whatever is reached has a value, and it is recorded, as is what it has recorded itself. -/
theorem recorded_of_reaches {m : TargetKey} (h : Relation.ReflTransGen (TakesIn st) k m)
    (hv : st.value? (.target k) = some (.ok v)) (nonempty : v ≠ .empty k.label k.configuration) :
    (∃ w, st.value? (.target m) = some (.ok w)) ∧ RecordedBy st k m.label.package ∧
      ∀ q, RecordedBy st m q → RecordedBy st k q := by
  induction h using Relation.ReflTransGen.head_induction_on generalizing v with
  | refl => exact ⟨⟨v, hv⟩, own_recorded hst labelled records hv nonempty, fun _ hq => hq⟩
  | @head k l htakes hrest ih =>
      obtain ⟨⟨w, hw⟩, hlabel, htaken⟩ := htakes.recorded hst labelled records hv nonempty
      by_cases hempty : w = .empty l.label l.configuration
      · obtain rfl := eq_of_reaches_of_empty (hempty ▸ hw) hrest
        exact ⟨⟨w, hw⟩, hlabel, htaken⟩
      · obtain ⟨hvalue, hown, hall⟩ := ih hw hempty
        exact ⟨hvalue, htaken _ hown, fun q hq => htaken q (hall q hq)⟩

/-- A value has recorded the package of its own label, which that of an alias has from the target
that the alias stands for. -/
theorem label_recorded (hv : st.value? (.target k) = some (.ok v))
    (nonempty : v ≠ .empty k.label k.configuration) : RecordedBy st k v.label.package := by
  induction hn : Store.rank (S := analysisSpace) st (.target k) using Nat.strongRecOn
    generalizing k v with
  | ind n ih =>
    rcases label_of_value? hst hv with hlabel | ⟨d, hd, hlt, w, hw, hlabel⟩
    · rw [hlabel]
      exact own_recorded hst labelled records hv nonempty
    · obtain ⟨_, hown, htaken⟩ :=
        (TakesIn.dependency hv hd).recorded hst labelled records hv nonempty
      rw [hlabel]
      by_cases hempty : w = .empty d.label d.configuration
      · rw [hempty]
        exact hown
      · exact htaken _ (ih _ (hn ▸ hlt) hw hempty rfl)

end Closure

/-- Let an engine that records packages begin with nothing and go through any history that leaves
packages under their own labels, after which a target has a value that is not empty for want of a
fitting configuration. Then the value has recorded exactly the package of its label, those of the
labels of its edges, and what the values of its dependencies and of the conditions that it consults
have recorded. So it has recorded, for every target that it takes in directly or through others, the
package of that target's label and that of the label of its value, which for an alias is that of
the target it stands for. -/
theorem packages_recorded_exactly
    (records : services.settings.storeTransitivePackages = true) {start : AnalysisSession}
    (empty : start.store = {}) {history : List (Engine.Call analysisSpace)}
    (proper : ∀ call ∈ history, call.Proper (AnalysisKey.computation (some services)))
    {s : AnalysisSession} (hs : s = start.after history) (labelled : Labelled s.store)
    (hv : s.store.value? (.target k) = some (.ok v))
    (nonempty : v ≠ .empty k.label k.configuration) :
    ∃ x ps, k.FansOut s.store x ∧ (∀ l, l ∈ v.dependencies ↔ ∃ d ∈ x.dependencies, d.key = l) ∧
      v.packages = some ps ∧ (∀ q, q ∈ ps ↔ Contributes s.store k x v q) ∧
      ∀ m, Relation.ReflTransGen (TakesIn s.store) k m →
        ∃ w, s.store.value? (.target m) = some (.ok w) ∧
          m.label.package ∈ ps ∧ w.label.package ∈ ps := by
  have hst := consistent_after empty proper (congrArg _ hs)
  obtain ⟨x, ps, hx, hkeys, hps, hmem⟩ := packages_of_value? hst labelled records hv nonempty
  have hrecorded : ∀ q, RecordedBy s.store k q → q ∈ ps := by
    rintro q ⟨v', ps', hv', hps', hq⟩
    obtain rfl : v = v' := Except.ok.inj (Option.some.inj (hv.symm.trans hv'))
    obtain rfl := Option.some.inj (hps.symm.trans hps')
    exact hq
  refine ⟨x, ps, hx, hkeys, hps, hmem, fun m hm => ?_⟩
  obtain ⟨⟨w, hw⟩, hlabel, hall⟩ := recorded_of_reaches hst labelled records hm hv nonempty
  refine ⟨w, hw, hrecorded _ hlabel, hrecorded _ ?_⟩
  by_cases hempty : w = .empty m.label m.configuration
  · rw [hempty]
    exact hlabel
  · exact hall _ (label_recorded hst labelled records hw hempty)

end TargetKey
end BuildAnalysis

/-! An alias of an alias of a library, in three packages, and a setting in a fourth one that both
aliases choose by. -/

namespace BuildAnalysis.RecordedPackagesSample

open AliasChainSample (firstKey firstPackage gccKey secondKey secondPackage)
open BuiltinRules.AliasSample (loading loading_proper package start)
open FragmentsSample (gccLabel libraries plain)
open TargetKey (Contributes TakesIn)

def services : Services :=
  { settings := { storeTransitivePackages := true }
    implementations := BuiltinRules.implementations.addRule "plain" plain }

def compute : Engine.Computation analysisSpace := AnalysisKey.computation (some services)

def history : List (Engine.Call analysisSpace) :=
  [loading [package, libraries, firstPackage, secondPackage],
    .compute compute {} true (.target firstKey)]

def session : AnalysisSession := Engine.Session.after start history

theorem history_proper : ∀ call ∈ history, call.Proper compute := by
  have hservices : AnalysisKey.ServicesLawful (some services) := by
    intro s hs
    obtain rfl := Option.some.inj hs
    exact Implementations.lawful_iff.mpr
      (BuiltinRules.implementations_have.addRule fun _ => .pure _)
  exact List.forall_mem_cons.mpr ⟨loading_proper _,
    List.forall_mem_singleton.mpr (.refl (AnalysisKey.computation_lawful hservices))⟩

theorem labelled : Labelled session.store := AggregationSample.labelled_of_all (by decide +kernel)

theorem takesIn_of_dependencies {k l : TargetKey}
    (h : (success? (session.store.value? (.target k))).map TargetValue.dependencies = some [l]) :
    TakesIn session.store k l := by
  obtain ⟨v, hv, hdependencies⟩ := Option.map_eq_some_iff.mp h
  exact .dependency (success?_eq_some hv) (hdependencies ▸ List.mem_singleton_self l)

theorem packages_recorded_exactly_first : ∃ v x ps,
    session.store.value? (.target firstKey) = some (.ok v) ∧
    v ≠ .empty firstKey.label firstKey.configuration ∧
    firstKey.FansOut session.store x ∧ v.packages = some ps ∧
    ps.members.map PackagePath.path = ["app", "c", "cpp", "lib"] ∧
    (∀ q, q ∈ ps ↔ Contributes session.store firstKey x v q) ∧
    Relation.ReflTransGen (TakesIn session.store) firstKey gccKey ∧ gccLabel.package ∈ ps := by
  have hrecorded : ((success? (session.store.value? (.target firstKey))).bind fun v =>
      v.packages.map fun ps => (v.kind, ps.members.map PackagePath.path)) =
        some (.rule, ["app", "c", "cpp", "lib"]) := by
    decide +kernel
  obtain ⟨v, hv, hmap⟩ := Option.bind_eq_some_iff.mp hrecorded
  obtain ⟨ps, hps, hmembers⟩ := Option.map_eq_some_iff.mp hmap
  obtain ⟨hkind, hmembers⟩ := Prod.mk.inj hmembers
  have hnonempty : v ≠ .empty firstKey.label firstKey.configuration := by
    rintro rfl
    cases hkind
  have hreaches : Relation.ReflTransGen (TakesIn session.store) firstKey gccKey :=
    .head (takesIn_of_dependencies (l := secondKey) (by decide +kernel))
      (.single (takesIn_of_dependencies (by decide +kernel)))
  have hrecords : services.settings.storeTransitivePackages = true := rfl
  obtain ⟨x, ps', hx, _, hps', hmem, hclosed⟩ := TargetKey.packages_recorded_exactly hrecords rfl
    history_proper rfl labelled (success?_eq_some hv) hnonempty
  obtain rfl := Option.some.inj (hps.symm.trans hps')
  obtain ⟨w, _, hlabel, _⟩ := hclosed gccKey hreaches
  exact ⟨v, x, ps, success?_eq_some hv, hnonempty, hx, hps, hmembers, hmem, hreaches, hlabel⟩

end BuildAnalysis.RecordedPackagesSample
