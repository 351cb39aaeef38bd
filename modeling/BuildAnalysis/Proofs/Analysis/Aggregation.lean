import BuildAnalysis.Proofs.Analysis.Grounding
import BuildAnalysis.Proofs.Analysis.Reporting

/-!
# Failures for others

A target that fails because of what it depends on fails in its own name, with every cause that its
evaluation came across, and ranks as the most important of them. This holds as long as the aspects
of its dependencies do well. The failure of an aspect is handed up as it is, in the name of the
target that the aspect was applied to, and a provider that an aspect repeats is the only cause of
the failure that it leads to; what was collected before is lost in both cases.
-/
namespace BuildAnalysis

open Engine (Store)

variable {services : Services} {st : Store analysisSpace} {f f' : Findings}
  {ks : List AnalysisKey}

/-- The causes of a target have that its package was loaded with errors and, for each edge, that its
target cannot be loaded. -/
structure CoversLoading (st : Store analysisSpace) (k : TargetKey) (x : TargetKey.Fan)
    (cs : Causes) : Prop where
  package : ∀ p message, st.value? (.package k.label.package) = some (.ok p) →
    p.errorMessage = some message → ⟨k.label, k.configuration, .packageLoading,
      s!"package {p.label} contains errors: {message}"⟩ ∈ cs
  edges : ∀ e ∈ x.edges, ∀ y, LookedUp st e.label (.error y) →
    ⟨e.label, none, y.bestTag, y.message⟩ ∈ cs

/-- The causes of a target have those of each dependency that has failed and, once all dependencies
have values, those of each aspect that has failed. -/
structure CoversValues (st : Store analysisSpace) (x : TargetKey.Fan) (cs : Causes) : Prop where
  dependencies : ∀ d ∈ x.dependencies, ∀ y, st.value? (.target d.key) = some (.error y) →
    ∀ c ∈ (y.toTargetFailure d.label d.configurationKey).causes, c ∈ cs
  aspects : ∀ values, List.Forall₂ (Batch.Analyzed st) x.dependencies values →
    ∀ a ∈ EdgeSource.aspectKeys x.dependencies values, ∀ y,
      st.value? (.aspect a) = some (.error y) →
        ∀ c ∈ (y.toTargetFailure a.base.label a.base.configuration).causes, c ∈ cs

/-- A failure in the name of a key that has all causes and ranks as the most important of them. -/
structure Aggregates (st : Store analysisSpace) (k : TargetKey) (x : TargetKey.Fan)
    (t : TargetFailure) : Prop where
  label : t.label = k.label
  configuration : t.configuration = k.configuration
  loading : CoversLoading st k x t.causes
  values : CoversValues st x t.causes
  detailed : t.detailedTag = t.causes.mostImportant

/-- All dependencies have values, and the failure is that of the first aspect that has failed. -/
def HandsUp (st : Store analysisSpace) (x : TargetKey.Fan) (t : TargetFailure) : Prop :=
  ∃ values u, List.Forall₂ (Batch.Analyzed st) x.dependencies values ∧
    EdgeSource.FirstFailed st (EdgeSource.aspectKeys x.dependencies values) u ∧
      t = u.markReported

/-- All dependencies have values, and an aspect repeats a provider, which is the only cause. -/
def Clashes (st : Store analysisSpace) (k : TargetKey) (x : TargetKey.Fan) (t : TargetFailure) :
    Prop :=
  ∃ values a e message, List.Forall₂ (Batch.Analyzed st) x.dependencies values ∧
    EdgeSource.Repeats st (EdgeSource.aspectKeys x.dependencies values) a e ∧
      t = ((k.failure .duplicateProvider
        s!"Aspect `{a.aspect.id}` applied to `{a.base.label}`: {e.message}").withMessage
          message).markReported

theorem aspectKeys_eq {deps : List Dependency} {values values' : List AnalyzedTarget}
    (h : List.Forall₂ (Batch.Analyzed st) deps values)
    (h' : List.Forall₂ (Batch.Analyzed st) deps values') :
    EdgeSource.aspectKeys deps values = EdgeSource.aspectKeys deps values' := by
  induction h generalizing values' with
  | nil => rfl
  | @cons d v deps values hv _ ih =>
      cases h' with
      | @cons _ v' _ values' hv' h' =>
        obtain ⟨hvalue, htarget⟩ := hv
        obtain ⟨hvalue', htarget'⟩ := hv'
        have hsame : v.value = v'.value :=
          Except.ok.inj (Option.some.inj (hvalue.symm.trans hvalue'))
        rw [← hsame] at htarget'
        have hkeys : AspectKey.ofDependency d v = AspectKey.ofDependency d v' := by
          rw [AspectKey.ofDependency, AspectKey.ofDependency, AnalyzedTarget.label,
            AnalyzedTarget.label, hsame, htarget.eq htarget']
        simp only [EdgeSource.aspectKeys, List.zip_cons_cons, List.flatMap_cons, hkeys]
        exact congrArg _ (ih h')

theorem CoversLoading.mono {k : TargetKey} {x : TargetKey.Fan} {cs cs' : Causes}
    (h : CoversLoading st k x cs) (hsub : ∀ c ∈ cs, c ∈ cs') : CoversLoading st k x cs' where
  package p message hp hmessage := hsub _ (h.package p message hp hmessage)
  edges e he y hy := hsub _ (h.edges e he y hy)

theorem CoversValues.of_ok {x : TargetKey.Fan} {values values' : List AnalyzedTarget}
    (hvalues : List.Forall₂ (Batch.Analyzed st) x.dependencies values)
    (haspects : Staged.Yields st f (x.source.applyAspects x.dependencies values) (.ok values')
      f' ks) (cs : Causes) : CoversValues st x cs where
  dependencies d hd y hy := by
    obtain ⟨v, _, hv, _⟩ := Engine.exists_of_mem_left hvalues hd
    cases hy.symm.trans hv
  aspects values₁ hvalues₁ a ha y hy := by
    rw [aspectKeys_eq hvalues₁ hvalues] at ha
    rcases EdgeSource.yields_applyAspects haspects with
      ⟨_, _, _, hall, _⟩ | ⟨_, hx, _⟩ | ⟨_, _, hx, _⟩
    · obtain ⟨v, hv⟩ := hall a ha
      cases hy.symm.trans hv
    · cases hx
    · cases hx

section Stages

variable {installed : Option Services} (hst : Consistent installed st) {k : TargetKey}
  {x : TargetKey.Fan}
include hst

theorem TargetKey.yields_prepare (h : Staged.Yields st f k.prepare (.ok (some x)) f' ks) :
    TargetAt st k.label x.loaded.target ∧
      x.loaded.configuration = k.configuration.map Configuration.mk ∧
      CoversLoading st k x f'.causes := by
  obtain ⟨loaded, f₁, _, _, hload, h, _⟩ := h.of_bind_ok
  obtain ⟨hpackage, htarget, hconfiguration, hbroken⟩ := yields_load hst hload
  split at h
  next =>
    obtain ⟨_, _, _, _, _, h, _⟩ := Staged.Yields.of_request_bind h
    cases (Staged.Yields.of_pure_ok h).1
  next =>
    obtain ⟨contexts, f₂, _, _, hcontexts, h, _⟩ := h.of_bind_ok
    obtain ⟨conditions, f₃, _, _, hconditions, h, _⟩ := h.of_bind_ok
    obtain ⟨es, f₄, _, _, hes, h, _⟩ := h.of_bind_ok
    obtain ⟨nodes, f₅, _, _, hnodes, h, _⟩ := h.of_bind_ok
    obtain ⟨deps, f₆, _, _, hdeps, h, _⟩ := h.of_bind_ok
    obtain ⟨hx, rfl, _⟩ := Staged.Yields.of_pure_ok h
    obtain rfl := Option.some.inj hx
    obtain ⟨_, hkept, hlooked⟩ := EdgeSource.yields_loadTargets hnodes
    have hlater := EdgeSource.dependencies_keeps _ nodes f₅ _ f' _ hdeps
    have hearlier : ∀ c ∈ f₁.causes, c ∈ f'.causes := fun c hc =>
      hlater c <| hkept c <| Evaluation.Keeps.ofExcept _ f₃ _ f₄ _ hes c <|
        k.consult_keeps loaded f₂ _ f₃ _ hconditions c <|
          k.toolchains_keeps loaded f₁ _ f₂ _ hcontexts c hc
    refine ⟨⟨_, hpackage, htarget⟩, hconfiguration, fun p message hp hmessage => ?_,
      fun e he y hy => ?_⟩
    · obtain rfl := Except.ok.inj (Option.some.inj (hpackage.symm.trans hp))
      exact hearlier _ (hbroken message hmessage)
    · obtain ⟨r, hr, hcause⟩ := hlooked e he
      exact hlater _ (hcause y (hr.unique hy))

theorem Batch.yields_resolve_covers {owner : Label} {configuration : Option ConfigurationKey}
    {a : Abort} (h : Staged.Yields st f (resolve owner configuration x.dependencies) (.error a)
      f' ks) :
    CoversValues st x f'.causes ∧ ∃ message reported,
      a = .dependency (.ofCauses owner configuration message f'.causes) reported := by
  obtain ⟨rs, hraise, hfailures, hcauses, _⟩ := yields_resolve_error hst h
  have hranked : ∀ t ∈ Resolved.failures rs, t.Ranked := fun t ht => by
    obtain ⟨d, _, e, he, rfl⟩ := (hfailures t).mp ht
    exact (rankedAt hst _ e ⟨_, he, rfl⟩).toTargetFailure _ _
  obtain ⟨message, rfl⟩ := raise?_eq_some hranked hcauses hraise
  refine ⟨⟨fun d hd y hy => hcauses _ ((hfailures _).mpr ⟨d, hd, y, hy, rfl⟩),
    fun values hvalues => ?_⟩, message, _, rfl⟩
  -- No aspects are applied, since a dependency has no value.
  obtain ⟨t, ht⟩ := List.exists_mem_of_ne_nil _ (failures_ne_nil_of_raise? hraise).1
  obtain ⟨d, hd, e, he, _⟩ := (hfailures t).mp ht
  obtain ⟨v, _, hv, _⟩ := Engine.exists_of_mem_left hvalues hd
  cases he.symm.trans hv

/-- How the dependencies of a target make its evaluation fail. -/
theorem TargetKey.yields_fanOut_error (hlabel : x.source.target.label = k.label)
    (hconfiguration : x.source.configurationKey = k.configuration) {a : Abort}
    (h : Staged.Yields st f (k.fanOut x) (.error a) f' ks) :
    (CoversValues st x f'.causes ∧ ∃ message,
      (∃ reported, a = .dependency (.ofCauses k.label k.configuration message f'.causes)
        reported) ∨ a = .collected (.ofCauses k.label k.configuration message f'.causes)) ∨
    ∃ values, List.Forall₂ (Batch.Analyzed st) x.dependencies values ∧
      ((∃ t, EdgeSource.FirstFailed st (EdgeSource.aspectKeys x.dependencies values) t ∧
        a = .aspect t) ∨
      ∃ b e, EdgeSource.Repeats st (EdgeSource.aspectKeys x.dependencies values) b e ∧
        a = x.source.repeatedProvider b e) := by
  unfold fanOut EdgeSource.fanOut at h
  rw [hlabel, hconfiguration] at h
  rcases h.of_bind with ⟨bundle, f₁, _, _, hbundle, hlast, _⟩ | ⟨y, hfailed, hy⟩
  · obtain ⟨values, _, _, _, hresolve, hbundle, _⟩ := hbundle.of_bind_ok
    obtain ⟨values', _, _, _, haspects, _⟩ := hbundle.of_bind_ok
    have hlast := Staged.Yields.of_get_bind hlast
    split at hlast
    next =>
      obtain ⟨ha, rfl⟩ := (Staged.Yields.of_get_bind hlast).of_throw_bind
      exact .inl ⟨.of_ok (Batch.yields_resolve_ok hresolve) haspects _, _,
        .inr (Except.error.inj ha)⟩
    next => cases (Staged.Yields.of_pure hlast).1
  · obtain rfl := Except.error.inj hy
    rcases hfailed.of_bind with ⟨values, _, _, _, hresolve, hrest, _⟩ | ⟨y, hresolve, hy⟩
    · have hvalues := Batch.yields_resolve_ok hresolve
      rcases hrest.of_bind with ⟨_, _, _, _, _, hlast, _⟩ | ⟨y, haspects, hy⟩
      · cases (Staged.Yields.of_pure hlast).1
      · obtain rfl := Except.error.inj hy
        refine .inr ⟨values, hvalues, ?_⟩
        rcases EdgeSource.yields_applyAspects haspects with
          ⟨_, hx, _⟩ | ⟨t, hx, hfirst, _⟩ | ⟨b, e, hx, hrepeats⟩
        · cases hx
        · exact .inl ⟨t, hfirst, Except.error.inj hx⟩
        · exact .inr ⟨b, e, hrepeats, Except.error.inj hx⟩
    · obtain rfl := Except.error.inj hy
      obtain ⟨hcovers, message, reported, ha⟩ := Batch.yields_resolve_covers hst hresolve
      exact .inl ⟨hcovers, message, .inl ⟨reported, ha⟩⟩

end Stages

def Labelled (st : Store analysisSpace) : Prop :=
  ∀ path p, st.value? (.package path) = some (.ok p) → p.label = path

theorem TargetAt.label_eq {label : Label} {t : Target} (h : TargetAt st label t)
    (labelled : Labelled st) : t.label = label := by
  obtain ⟨p, hp, ht⟩ := h
  unfold Package.target at ht
  split at ht
  next u hfind =>
    obtain rfl := Except.ok.inj ht
    have hpackage := (p.owned u (List.mem_of_find?_eq_some hfind)).trans (labelled _ p hp)
    have hname : u.label.name = label.name := by simpa using List.find?_some hfind
    have hlabel : u.label = ⟨label.package, label.name⟩ := by rw [← hpackage, ← hname]
    exact hlabel
  next => cases ht

/-- The evaluation of a target gets to its dependencies and fails because of them. -/
def FailsOn (services : Services) (st : Store analysisSpace) (k : TargetKey) (x : TargetKey.Fan) :
    Prop :=
  ∃ f f' a, (∃ ks, Staged.Yields st (AnalysisKey.initial services.settings) k.prepare
    (.ok (some x)) f ks) ∧ ∃ ks, Staged.Yields st f (k.fanOut x) (.error a) f' ks

theorem FailsOn.yields {k : TargetKey} {x : TargetKey.Fan}
    (hst : Consistent (some services) st) (h : FailsOn services st k x) {t : TargetFailure}
    (ht : TargetFailedAt st (.target k) t) :
    ∃ f f' a, (∃ ks, Staged.Yields st (AnalysisKey.initial services.settings) k.prepare
      (.ok (some x)) f ks) ∧ (∃ ks, Staged.Yields st f (k.fanOut x) (.error a) f' ks) ∧
        t = (k.reportFailure f' a).2 := by
  obtain ⟨f, f', a, ⟨ks, hprepare⟩, ks', hfan⟩ := h
  obtain ⟨e, ⟨v, hv, hfailure⟩, htarget⟩ := ht
  obtain ⟨_, _, _, _, _, heval⟩ := AnalysisKey.evaluates_of_value? hst rfl hv
  rcases AnalysisKey.evaluates_target heval with
    ⟨hnone, _⟩ | ⟨s, result, found, hs, hyields, hend⟩
  · cases hnone
  obtain rfl := Option.some.inj hs
  -- The stages are settled, so those of the cached evaluation ended as the given ones did.
  have hresult : result = .error a ∧ found = f' := by
    rw [TargetKey.evaluate_eq_fanOut] at hyields
    rcases hyields.of_bind with ⟨fan, f₁, _, _, hprepare', hrest, _⟩ | ⟨y, hprepare', _⟩
    · obtain ⟨hx, rfl⟩ := hprepare.unique k.prepare_has hprepare'
      obtain rfl := Except.ok.inj hx
      rcases hrest.of_bind with ⟨_, _, _, _, hfan', _, _⟩ | ⟨y, hfan', hy⟩
      · cases (hfan.unique (k.fanOut_has x) hfan').1
      · obtain ⟨hya, rfl⟩ := hfan.unique (k.fanOut_has x) hfan'
        obtain rfl := Except.error.inj hya
        exact ⟨hy, rfl⟩
    · cases (hprepare.unique k.prepare_has hprepare').1
  obtain ⟨rfl, rfl⟩ := hresult
  refine ⟨f, found, a, ⟨ks, hprepare⟩, ⟨ks', hfan⟩, ?_⟩
  rcases hend with ⟨_, hok, _⟩ | ⟨b, hb, rfl, _⟩
  · cases hok
  · obtain rfl := Except.error.inj hb
    obtain rfl := Option.some.inj hfailure
    exact (Option.some.inj htarget).symm

/-- Let an engine begin with nothing and go through any history that leaves packages under their own
labels. If the evaluation of a target fails because of its dependencies, then the cached failure is
in the name of the target, has every cause that was found and ranks as the most important of them,
unless an aspect of a dependency has failed, whose failure is handed up as it is, or repeats a
provider. -/
theorem failure_aggregates {start : AnalysisSession} (empty : start.store = {})
    {history : List (Engine.Call analysisSpace)}
    (proper : ∀ call ∈ history, call.Proper (AnalysisKey.computation (some services)))
    {s : AnalysisSession} (hs : s = start.after history)
    (labelled : Labelled s.store)
    {k : TargetKey} {x : TargetKey.Fan} (failing : FailsOn services s.store k x)
    {t : TargetFailure} (failed : TargetFailedAt s.store (.target k) t) :
    Aggregates s.store k x t ∨ HandsUp s.store x t ∨ Clashes s.store k x t := by
  have hst := consistent_after empty proper (congrArg _ hs)
  obtain ⟨f, f', a, ⟨_, hprepare⟩, ⟨_, hfan⟩, rfl⟩ := failing.yields hst failed
  obtain ⟨hown, hconfiguration, hloading⟩ := TargetKey.yields_prepare hst hprepare
  have hlabel : x.source.target.label = k.label := hown.label_eq labelled
  have hkey : x.source.configurationKey = k.configuration := by
    change x.loaded.configuration.map Configuration.key = k.configuration
    rw [hconfiguration, Option.map_map]
    exact Option.map_id'
  have hloading := hloading.mono (k.fanOut_keeps x f _ f' _ hfan)
  rcases TargetKey.yields_fanOut_error hst hlabel hkey hfan with
    ⟨hvalues, message, ⟨reported, rfl⟩ | rfl⟩ |
      ⟨values, hvalues, ⟨u, hfirst, rfl⟩ | ⟨b, e, hrepeats, rfl⟩⟩
  · obtain ⟨message', hreport⟩ := k.reportFailure_dependency f' (.ofCauses k.label
      k.configuration message f'.causes) reported
    rw [hreport]
    exact .inl ⟨rfl, rfl, hloading, hvalues, rfl⟩
  · exact .inl ⟨rfl, rfl, hloading, hvalues, rfl⟩
  · exact .inr (.inl ⟨values, u, hvalues, hfirst, rfl⟩)
  · obtain ⟨message', hreport⟩ := k.reportFailure_dependency f' (x.source.failure .duplicateProvider
      s!"Aspect `{b.aspect.id}` applied to `{b.base.label}`: {e.message}") false
    refine .inr (.inr ⟨values, b, e, message', hvalues, hrepeats, ?_⟩)
    rw [EdgeSource.repeatedProvider, hreport, EdgeSource.failure, hlabel, hkey]
    rfl

end BuildAnalysis

/-! A target in a broken package, with an aspect for its dependency that lacks its tool. -/

namespace BuildAnalysis.AggregationSample

open BuiltinRules.AliasSample

def missingLabel : Label := ⟨optLabel.package, ⟨"missing", rfl, by decide⟩⟩

def aspect : Aspect :=
  { id := "check", attributes := [{ AttrDecl.dep "_tool" with default := .label missingLabel }] }

def top : Target :=
  { label := binLabel
    kind := .rule (rule "binary" [{ AttrDecl.dep "deps" with aspects := [aspect] }] (by decide))
    values := [("deps", .labelList [optLabel])] }

def topPackage : Package where
  label := binLabel.package
  targets := [top]
  owned := by decide
  distinct := by decide
  errorMessage := some "syntax error"

def key : TargetKey := ⟨binLabel, some optimized.key, none⟩

def history : List (Engine.Call analysisSpace) :=
  [loading [package, topPackage], .compute compute {} true (.target key)]

def session : AnalysisSession := Engine.Session.after start history

theorem history_proper : ∀ call ∈ history, call.Proper compute :=
  List.forall_mem_cons.mpr ⟨loading_proper _, List.forall_mem_singleton.mpr compute_interrupts⟩

def isLabelled : (k : AnalysisKey) → k.Value → Bool
  | .package path, .ok p => p.label == path
  | _, _ => true

theorem labelled_of_all {st : Engine.Store analysisSpace}
    (h : st.entries.all (fun e => isLabelled e.key e.value) = true) : Labelled st := by
  intro path p hp
  obtain ⟨deps, hmem⟩ := Engine.Store.exists_mem_of_value? hp
  have hlabelled : (p.label == path) = true := List.all_eq_true.mp h _ hmem
  exact eq_of_beq hlabelled

theorem labelled : Labelled session.store := labelled_of_all (by decide +kernel)

/-- What a part of an evaluation comes to on the store. -/
def replayed {α : Type} (e : Evaluation α) (f : Findings) : Option (Except Abort α × Findings) :=
  ((Evaluation.runFrom e f).run.replay session.store none).bind fun q => q.result.toOption

theorem yields_of_replayed {α : Type} {e : Evaluation α} {f f' : Findings} {r : Except Abort α}
    (h : replayed e f = some (r, f')) : ∃ ks, Staged.Yields session.store f e r f' ks := by
  obtain ⟨q, hq, hresult⟩ := Option.bind_eq_some_iff.mp h
  refine ⟨q.requested, q.effects, none, q, hq, ?_, rfl, rfl⟩
  cases hr : q.result with
  | error e =>
      rw [hr] at hresult
      cases hresult
  | ok p =>
      rw [hr] at hresult
      exact congrArg _ (Option.some.inj hresult)

/-- What the target fans out to, if evaluating that fails. -/
def failing? : Option TargetKey.Fan :=
  match replayed key.prepare (AnalysisKey.initial services.settings) with
  | some (.ok (some x), f) =>
    match replayed (key.fanOut x) f with
    | some (.error _, _) => some x
    | _ => none
  | _ => none

theorem failsOn : ∃ x, FailsOn services session.store key x := by
  have hfailing : failing?.isSome = true := by decide +kernel
  obtain ⟨x, hx⟩ := Option.isSome_iff_exists.mp hfailing
  unfold failing? at hx
  split at hx
  next x' f hprepare =>
    split at hx
    next a f' hfan =>
      exact ⟨x', f, f', a, yields_of_replayed hprepare, yields_of_replayed hfan⟩
    next => cases hx
  next => cases hx

theorem failed : ∃ t, TargetFailedAt session.store (.target key) t ∧ t.label = optLabel ∧
    t.causes.labels = [missingLabel] ∧ t.detailedTag = some .targetNotFound := by
  have hfailure : (targetFailure? session.store (.target key)).map
      (fun t => (t.label, t.causes.labels, t.detailedTag)) =
        some (optLabel, [missingLabel], some .targetNotFound) := by
    decide +kernel
  obtain ⟨t, ht, heq⟩ := Option.map_eq_some_iff.mp hfailure
  simp only [Prod.mk.injEq] at heq
  exact ⟨t, targetFailedAt_of_eq ht, heq⟩

theorem failure_aggregates_top : ∃ x t, FailsOn services session.store key x ∧
    TargetFailedAt session.store (.target key) t ∧
    (Aggregates session.store key x t ∨ HandsUp session.store x t ∨
      Clashes session.store key x t) := by
  obtain ⟨x, hx⟩ := failsOn
  obtain ⟨t, ht, _⟩ := failed
  have hsession : session = Engine.Session.after start history := rfl
  exact ⟨x, t, hx, ht, failure_aggregates rfl history_proper hsession labelled hx ht⟩

/-- A failure in the name of a dependency. The broken package of the target is not among its causes,
and it does not rank as that would. -/
theorem aspect_failure_loses_causes : ∃ x t, FailsOn services session.store key x ∧
    TargetFailedAt session.store (.target key) t ∧ t.label ≠ key.label ∧
    (∀ message, ⟨key.label, key.configuration, .packageLoading, message⟩ ∉ t.causes) ∧
    t.detailedTag ≠ some .packageLoading ∧ ¬ Aggregates session.store key x t := by
  obtain ⟨x, hx⟩ := failsOn
  obtain ⟨t, ht, hlabel, hcauses, htag⟩ := failed
  have hother : t.label ≠ key.label := by
    rw [hlabel]
    decide
  refine ⟨x, t, hx, ht, hother, fun message hmem => ?_, by simp [htag], fun h => hother h.label⟩
  have hmissing : key.label ∈ t.causes.labels := List.mem_map_of_mem (f := Cause.label) hmem
  rw [hcauses] at hmissing
  revert hmissing
  decide

end BuildAnalysis.AggregationSample
