import Mathlib.Data.List.Induction
import BuildAnalysis.Proofs.Analysis.Ending
import BuildAnalysis.Proofs.Analysis.Aggregation
import BuildAnalysis.Proofs.Analysis.Fragments
import BuildAnalysis.Proofs.Collection.First

/-!
# The failure of a batch

A batch fails where some dependency has failed or where the target of a value is not in the package
that was asked for. What is raised then is in the name of whoever asked. It has the causes known
before and those of all failures, each once and in order, and says what the first of the most
important failures says. Where nothing fails, no cause is added.
-/
namespace BuildAnalysis

open Engine (Store)

namespace Tag

/-- The rank of a tag that may be absent, which is then less important than any tag. -/
def rankOf : Option Tag → Nat
  | some t => t.rank
  | none => all.length

theorem rank_lt_length (t : Tag) : t.rank < all.length := by
  cases t <;> decide

theorem moreImportant?_eq_ite (a b : Option Tag) :
    moreImportant? a b = if rankOf b < rankOf a then b else a := by
  cases a with
  | none =>
      cases b with
      | none => rfl
      | some b => exact (if_pos (rank_lt_length b)).symm
  | some a =>
      cases b with
      | none => exact (if_neg (Nat.not_lt.mpr (Nat.le_of_lt (rank_lt_length a)))).symm
      | some b =>
          simp only [moreImportant?, moreImportant, rankOf]
          exact apply_ite some (b.rank < a.rank) b a

end Tag

namespace TargetFailure

variable {fs : List TargetFailure} {t u : TargetFailure}

/-- No failure of the list is more important. -/
def Unsurpassed (fs : List TargetFailure) (t : TargetFailure) : Prop :=
  ∀ u ∈ fs, Tag.rankOf t.detailedTag ≤ Tag.rankOf u.detailedTag

/-- The first of the most important failures of a list. -/
def Foremost (fs : List TargetFailure) (t : TargetFailure) : Prop := First (Unsurpassed fs) fs t

theorem unsurpassed_concat : Unsurpassed (fs ++ [u]) t ↔
    Unsurpassed fs t ∧ Tag.rankOf t.detailedTag ≤ Tag.rankOf u.detailedTag := by
  simp [Unsurpassed, or_imp, forall_and]

theorem Foremost.concat (h : Foremost fs t)
    (hle : Tag.rankOf t.detailedTag ≤ Tag.rankOf u.detailedTag) : Foremost (fs ++ [u]) t := by
  have hsame : ∀ x ∈ fs, Unsurpassed fs x ↔ Unsurpassed (fs ++ [u]) x := fun x _ => by
    rw [unsurpassed_concat]
    exact ⟨fun hx => ⟨hx, Nat.le_trans (hx t h.mem) hle⟩, And.left⟩
  exact first_append.mpr (.inl ((first_congr hsame).mp h))

theorem Foremost.replaced (h : Foremost fs t)
    (hlt : Tag.rankOf u.detailedTag < Tag.rankOf t.detailedTag) : Foremost (fs ++ [u]) u := by
  have hbelow : ∀ x ∈ fs, Tag.rankOf u.detailedTag < Tag.rankOf x.detailedTag := fun x hx =>
    Nat.lt_of_lt_of_le hlt (h.holds x hx)
  have hfirst : Unsurpassed (fs ++ [u]) u :=
    unsurpassed_concat.mpr ⟨fun x hx => Nat.le_of_lt (hbelow x hx), Nat.le_refl _⟩
  refine first_append.mpr (.inr ⟨fun x hx hunsurpassed => ?_, .here hfirst⟩)
  exact absurd (unsurpassed_concat.mp hunsurpassed).2 (Nat.not_le.mpr (hbelow x hx))

theorem foremost_singleton (t : TargetFailure) : Foremost [t] t :=
  .here (List.forall_mem_singleton.mpr (Nat.le_refl _))

/-- What is kept of failures: the last one if it is more important than what was kept before. -/
theorem Worst.add_kept (t u : TargetFailure) : Worst.add ⟨t.detailedTag, some t⟩ u =
    if Tag.rankOf u.detailedTag < Tag.rankOf t.detailedTag then ⟨u.detailedTag, some u⟩
    else ⟨t.detailedTag, some t⟩ := by
  unfold Worst.add
  rw [Tag.moreImportant?_eq_ite]
  split
  next hlt =>
    have hne : u.detailedTag ≠ t.detailedTag := fun h => by
      rw [h] at hlt
      exact Nat.lt_irrefl _ hlt
    simp [hne]
  next => simp

theorem worst_foremost (h : fs ≠ []) : ∃ t, Foremost fs t ∧ worst fs = ⟨t.detailedTag, some t⟩ := by
  induction fs using List.reverseRecOn with
  | nil => exact absurd rfl h
  | append_singleton fs u ih =>
      have hworst : worst (fs ++ [u]) = (worst fs).add u := List.foldl_concat ..
      rw [hworst]
      by_cases hfs : fs = []
      · subst hfs
        refine ⟨u, foremost_singleton u, ?_⟩
        simp [worst, Worst.add, Tag.moreImportant?]
      · obtain ⟨t, ht, hkept⟩ := ih hfs
        rw [hkept, Worst.add_kept]
        split
        next hlt => exact ⟨u, ht.replaced hlt, rfl⟩
        next hle => exact ⟨t, ht.concat (Nat.not_lt.mp hle), rfl⟩

end TargetFailure

namespace Batch

variable {st : Store analysisSpace} {f f' : Findings} {ks : List AnalysisKey} {α : Type}
  {owner : Label} {configuration : Option ConfigurationKey} {deps : List Dependency}

/-- What the first pass asks for is there: values and packages of the dependencies. -/
def Available (st : Store analysisSpace) (deps : List Dependency) : Prop :=
  ∀ d ∈ deps, st.contains (.target d.key) = true ∧ st.contains (.package d.label.package) = true

/-- What the second pass asks for is there: the packages and configurations of values that are of
another package or in another configuration than asked for. -/
def ElsewhereAvailable (st : Store analysisSpace) (deps : List Dependency) : Prop :=
  ∀ d ∈ deps, ∀ v, st.value? (.target d.key) = some (.ok v) →
    (v.label.package ≠ d.label.package → st.contains (.package v.label.package) = true) ∧
    ∀ c, v.configuration = some c → v.configuration ≠ d.configurationKey →
      st.contains (.configuration c) = true

/-- How a dependency fails in the first pass: its value is a failure, or the target of the value is
not in the package that was asked for. -/
def failure? (st : Store analysisSpace) (d : Dependency) : Option TargetFailure :=
  match (st.value? (.target d.key) : Option (Except Failure TargetValue)) with
  | some (.error e) => some (e.toTargetFailure d.label d.configurationKey)
  | some (.ok v) =>
    if v.label.package = d.label.package then
      match (st.value? (.package d.label.package) : Option (Except Failure Package)) with
      | some loaded =>
        match Package.lookup loaded v.label.name with
        | .error e => some (e.toTargetFailure d.label d.configurationKey)
        | .ok _ => none
      | none => none
    else none
  | none => none

/-- The failures of dependencies in the first pass, in order. -/
def failing (st : Store analysisSpace) (deps : List Dependency) : List TargetFailure :=
  deps.filterMap (failure? st)

theorem failure?_firstLook {d : Dependency} {v : Except Failure TargetValue}
    {loaded : Except Failure Package} (hv : st.value? (.target d.key) = some v)
    (hloaded : st.value? (.package d.label.package) = some loaded) :
    (firstLook d v loaded).failure? = failure? st d := by
  unfold failure? firstLook lookup
  rw [hv, hloaded]
  cases v with
  | error e => rfl
  | ok v =>
      dsimp only
      split
      next => cases Package.lookup loaded v.label.name <;> rfl
      next => rfl

theorem FirstPass.failures_eq {rs : List (Resolved PartialTarget)} (h : FirstPass st deps rs) :
    Resolved.failures rs = failing st deps := by
  induction h with
  | nil => rfl
  | cons hr _ ih =>
      obtain ⟨v, loaded, hv, hloaded, rfl⟩ := hr
      have hlook := failure?_firstLook hv hloaded
      unfold Resolved.failures failing at ih ⊢
      rw [List.filterMap_cons, List.filterMap_cons, hlook, ih]

theorem FirstPass.failing_eq_nil {partials : List PartialTarget}
    (h : FirstPass st deps (partials.map Resolved.found)) : failing st deps = [] := by
  rw [← h.failures_eq, Resolved.failures_map_found]

theorem ends_settle (rs : List (Resolved α)) :
    Staged.Ends st f (settle owner configuration rs) := by
  unfold settle
  refine .bind (.modify _) fun _ _ _ _ => .bind .get fun _ _ _ _ => ?_
  split
  · exact .throw _
  · exact .pure _

theorem firstLook_open {d : Dependency} {v : Except Failure TargetValue}
    {loaded : Except Failure Package} {p : PartialTarget} (h : firstLook d v loaded = .found p) :
    (p.target = none → p.value.label.package ≠ d.label.package) ∧
      (p.configuration = none → ∀ c, p.value.configuration = some c →
        p.value.configuration ≠ d.configurationKey) := by
  have hconfiguration : ∀ w : TargetValue,
      (if w.configuration = d.configurationKey then d.configuration else none) = none →
        ∀ c, w.configuration = some c → w.configuration ≠ d.configurationKey := by
    intro w hnone c hc hsame
    rw [if_pos hsame] at hnone
    rw [hc, Dependency.configurationKey, hnone] at hsame
    cases hsame
  unfold firstLook at h
  split at h
  next => cases h
  next w =>
    dsimp only at h
    split at h
    next =>
      split at h
      next =>
        cases h
        exact ⟨nofun, hconfiguration w⟩
      next => cases h
    next helsewhere =>
      cases h
      exact ⟨fun _ => helsewhere, hconfiguration w⟩

/-- What the second pass asks for is of a value that is elsewhere. -/
theorem FirstPass.exists_dependency {partials : List PartialTarget}
    (h : FirstPass st deps (partials.map Resolved.found)) {p : PartialTarget} (hp : p ∈ partials) :
    ∃ d ∈ deps, st.value? (.target d.key) = some (.ok p.value) ∧
      (p.target = none → p.value.label.package ≠ d.label.package) ∧
      (p.configuration = none → ∀ c, p.value.configuration = some c →
        p.value.configuration ≠ d.configurationKey) := by
  obtain ⟨d, hd, v, loaded, hv, _, hfound⟩ :=
    Engine.exists_of_mem_right h (List.mem_map_of_mem hp)
  obtain ⟨rfl, _⟩ := firstLook_eq_found hfound.symm
  exact ⟨d, hd, hv, firstLook_open hfound.symm⟩

theorem ends_requestMissing {partials : List PartialTarget}
    (helsewhere : ElsewhereAvailable st deps)
    (hpass : FirstPass st deps (partials.map Resolved.found)) :
    Staged.Ends st f (requestMissing partials) := by
  unfold requestMissing
  dsimp only
  split
  · exact .pure _
  refine .request (Engine.Demand.ends_values₂ (fun path hpath => ?_) fun c hc => ?_)
  · obtain ⟨p, hp, rfl⟩ := List.mem_map.mp (Listing.mem_distinct.mp hpath)
    obtain ⟨hp, hnone⟩ := List.mem_filter.mp hp
    obtain ⟨d, hd, hv, hpackage, _⟩ := hpass.exists_dependency hp
    exact (helsewhere d hd _ hv).1 (hpackage (Option.isNone_iff_eq_none.mp hnone))
  · obtain ⟨p, hp, hc⟩ := List.mem_filterMap.mp (Listing.mem_distinct.mp hc)
    obtain ⟨hp, hnone⟩ := List.mem_filter.mp hp
    obtain ⟨d, hd, hv, _, hconfiguration⟩ := hpass.exists_dependency hp
    exact (helsewhere d hd _ hv).2 c hc
      (hconfiguration (Option.isNone_iff_eq_none.mp hnone) c hc)

/-- A batch is resolved or fails where what its first pass asks for is there and, unless that fails,
what its second pass asks for. -/
theorem ends_resolve (available : Available st deps)
    (helsewhere : failing st deps = [] → ElsewhereAvailable st deps) :
    Staged.Ends st f (resolve owner configuration deps) := by
  unfold resolve
  split
  · exact .pure _
  refine .bind (.request (Engine.Demand.ends_values₂ (fun k hk => ?_) fun path hpath => ?_))
    fun asked f₁ ks hasked => ?_
  · obtain ⟨d, hd, rfl⟩ := List.mem_map.mp hk
    exact (available d hd).1
  · obtain ⟨d, hd, rfl⟩ := List.mem_map.mp hpath
    exact (available d hd).2
  obtain ⟨⟨values, loaded⟩, es, hrequest, hr, _⟩ := Staged.Yields.of_request hasked
  obtain rfl := Except.ok.inj hr
  obtain ⟨_, hvalues, hloaded⟩ := Engine.Demand.Yields.of_values₂ hrequest
  have hpass := forall₂_firstLook hvalues hloaded
  refine .bind (.modify _) fun _ _ _ _ => .bind (ends_settle _) fun partials _ _ hsettled => ?_
  have hfound := yields_settle_ok hsettled
  rw [hfound] at hpass
  exact .bind (ends_requestMissing (helsewhere hpass.failing_eq_nil) hpass) fun _ _ _ _ =>
    ends_settle _

structure Raises (owner : Label) (configuration : Option ConfigurationKey) (known : Causes)
    (fs : List TargetFailure) (e : TargetFailure) : Prop where
  label : e.label = owner
  configuration : e.configuration = configuration
  /-- The causes known before, then those of the failures in order, each once. -/
  causes : e.causes.items = Listing.distinct (known.items ++ fs.flatMap fun t => t.causes.items)
  /-- It says what the foremost failure says. -/
  message : ∃ t, TargetFailure.Foremost fs t ∧ e.message = t.message
  /-- It ranks as its causes do if all failures do. -/
  ranked : (∀ t ∈ fs, t.Ranked) → e.Ranked

theorem raises_of_raise? {known : Causes} {rs : List (Resolved α)} {x : Abort}
    (h : raise? owner configuration (causes known rs) rs = some x) :
    ∃ e reported, x = .dependency e reported ∧ e.causes = causes known rs ∧
      Raises owner configuration known (Resolved.failures rs) e := by
  obtain ⟨t, ht, hworst⟩ := TargetFailure.worst_foremost (failures_ne_nil_of_raise? h).1
  unfold raise? at h
  rw [hworst] at h
  obtain rfl := Option.some.inj h
  refine ⟨_, _, rfl, rfl, rfl, rfl, Causes.items_foldl_addAll _ _, ⟨t, ht, rfl⟩, fun hranked => ?_⟩
  have htag : t.detailedTag = t.causes.mostImportant := hranked t ht.mem
  have hmore : Tag.moreImportant? (causes known rs).mostImportant t.causes.mostImportant =
      (causes known rs).mostImportant :=
    Causes.moreImportant?_mostImportant fun c hc => mem_causes.mpr (.inr ⟨t, ht.mem, hc⟩)
  rw [← htag] at hmore
  exact hmore

/-- A batch in which some dependency has failed is raised for all that have. -/
theorem yields_resolve_raises {r : Except Abort (List AnalyzedTarget)}
    (h : Staged.Yields st f (resolve owner configuration deps) r f' ks)
    (hfailing : failing st deps ≠ []) :
    ∃ e reported, r = .error (.dependency e reported) ∧ f'.causes = e.causes ∧
      Raises owner configuration f.causes (failing st deps) e := by
  rcases yields_resolve h with ⟨rfl, _, _⟩ | ⟨values, rs, _, hpass, _, ⟨x, rfl, _, hfirst⟩ |
    ⟨partials, _, _, _, _, ⟨_, hfirst⟩, _⟩⟩
  · exact absurd rfl hfailing
  · obtain ⟨hraise, hcauses⟩ := yields_settle_error hfirst
    rw [hcauses] at hraise
    obtain ⟨e, reported, rfl, hsame, hraises⟩ := raises_of_raise? hraise
    rw [hpass.failures_eq, (notePackages_causes values f).1] at hraises
    exact ⟨e, reported, rfl, hcauses.trans hsame.symm, hraises⟩
  · rw [yields_settle_ok hfirst] at hpass
    exact absurd hpass.failing_eq_nil hfailing

theorem failure?_of_analyzed {d : Dependency} {a : AnalyzedTarget} (h : Analyzed st d a) :
    failure? st d = none := by
  obtain ⟨hv, htarget⟩ := h
  unfold failure?
  rw [hv]
  dsimp only
  split
  next hpackage =>
    obtain ⟨loaded, hloaded, hlookup⟩ := lookedUp_ok.mpr htarget
    rw [hpackage] at hloaded
    rw [hloaded]
    dsimp only
    rw [hlookup]
  next => rfl

/-- A batch whose dependencies all have values, of targets that are there, is resolved and adds no
causes. -/
theorem yields_resolve_untroubled {r : Except Abort (List AnalyzedTarget)}
    (h : Staged.Yields st f (resolve owner configuration deps) r f' ks)
    (hanalyzed : ∀ d ∈ deps, ∃ a, Analyzed st d a) :
    ∃ as, r = .ok as ∧ f'.causes = f.causes := by
  have hnone : failing st deps = [] := List.filterMap_eq_nil_iff.mpr fun d hd => by
    obtain ⟨a, ha⟩ := hanalyzed d hd
    exact failure?_of_analyzed ha
  rcases yields_resolve h with ⟨_, rfl, rfl⟩ | ⟨values, rs, _, hpass, _, ⟨x, rfl, _, hfirst⟩ |
    ⟨partials, packages, configurations, f₁, hasked, ⟨_, hfirst⟩, _, hsecond⟩⟩
  · exact ⟨[], rfl, rfl⟩
  · obtain ⟨hraise, _⟩ := yields_settle_error hfirst
    exact absurd (hpass.failures_eq.trans hnone) (failures_ne_nil_of_raise? hraise).1
  · rw [yields_settle_ok hfirst] at hpass
    have hthere : ∀ p ∈ partials, ∃ t, TargetAt st p.value.label t := fun p hp => by
      obtain ⟨d, hd, hv, _⟩ := hpass.exists_dependency hp
      obtain ⟨a, ha, htarget⟩ := hanalyzed d hd
      have hsame : a.value = p.value := Except.ok.inj (Option.some.inj (ha.symm.trans hv))
      exact ⟨a.target, hsame ▸ htarget⟩
    cases r with
    | error x =>
        exact absurd (failures_secondLook hthere fun _ => hasked.lookedUpIn)
          (failures_ne_nil_of_raise? (yields_settle_error hsecond).1).1
    | ok as =>
        obtain rfl := yields_settle_findings hsecond
        obtain rfl := yields_settle_findings hfirst
        exact ⟨as, rfl, (notePackages_causes values f).1⟩

/-- A store that an engine has come to, which began with nothing. -/
def Reached (services : Option Services) (st : Store analysisSpace) : Prop :=
  ∃ (start : AnalysisSession) (history : List (Engine.Call analysisSpace)), start.store = {} ∧
    (∀ call ∈ history, call.Proper (AnalysisKey.computation services)) ∧
    st = (start.after history).store

/-- Whatever has failed for an engine ranks as its causes do. -/
theorem failing_ranked {services : Option Services} (h : Reached services st) :
    ∀ t ∈ failing st deps, t.Ranked := by
  obtain ⟨start, history, empty, proper, hs⟩ := h
  have hst : Consistent services st := consistent_after empty proper hs
  intro t ht
  obtain ⟨d, _, hd⟩ := List.mem_filterMap.mp ht
  unfold failure? at hd
  split at hd
  next e he =>
    obtain rfl := Option.some.inj hd
    exact (rankedAt hst _ e ⟨_, he, rfl⟩).toTargetFailure _ _
  next v hv =>
    -- The target of a value is there, so looking it up does not fail.
    split at hd
    next hpackage =>
      split at hd
      next loaded hloaded =>
        split at hd
        next y hy =>
          rw [← hpackage] at hloaded
          exact absurd ⟨loaded, hloaded, hy⟩ (not_lookedUp_error hst hv)
        next => cases hd
      next => cases hd
    next => cases hd
  next => cases hd

/-- Let a batch of dependencies be resolved at any moment at which nothing is cancelled and what the
first pass asks for is there, whatever has been found before. If some dependencies have failed, in
that their values are failures or their targets are not in the packages asked for, then the batch
fails. The failure is in the name of the target that asked and of its configuration; it has the
causes known before and then those of all that have failed, in order and each once, which are also
the causes found from then on; it says what the first of the most important failures says; and in a
store that an engine has come to it ranks as the most important of all these causes. If instead each
dependency has a value whose target is there, and what the second pass asks for is there too, then
the batch is resolved to these values, in order, and no cause is added. -/
theorem resolve_raises_failures {r : Engine.Running analysisSpace}
    (live : r.session.isCancelled = false) (nest : Engine.Nest analysisSpace) (owner : Label)
    (configuration : Option ConfigurationKey) {deps : List Dependency} (f : Findings)
    (available : Available r.session.store deps) :
    (failing r.session.store deps ≠ [] → ∃ e reported f',
      (((resolve owner configuration deps).runFrom f).run.run nest r).1 =
        .ok (.error (.dependency e reported), f') ∧
      f'.causes = e.causes ∧
      Raises owner configuration f.causes (failing r.session.store deps) e ∧
      ∀ services, Reached services r.session.store → e.Ranked) ∧
    ((∀ d ∈ deps, ∃ a, Analyzed r.session.store d a) →
      ElsewhereAvailable r.session.store deps → ∃ as f',
        (((resolve owner configuration deps).runFrom f).run.run nest r).1 = .ok (.ok as, f') ∧
        f'.causes = f.causes ∧ List.Forall₂ (Analyzed r.session.store) deps as) := by
  have lawful : Staged.Lawful (resolve owner configuration deps) :=
    resolve_has owner configuration deps
  refine ⟨fun hfailing => ?_, fun hanalyzed helsewhere => ?_⟩
  · have hends : Staged.Ends r.session.store f (resolve owner configuration deps) :=
      ends_resolve available fun hnone => absurd hnone hfailing
    obtain ⟨result, f', _, hrun, hyields⟩ := hends.exists_run lawful live nest
    obtain ⟨e, reported, rfl, hcauses, hraises⟩ := yields_resolve_raises hyields hfailing
    exact ⟨e, reported, f', hrun, hcauses, hraises, fun _ hreached =>
      hraises.ranked (failing_ranked hreached)⟩
  · have hends : Staged.Ends r.session.store f (resolve owner configuration deps) :=
      ends_resolve available fun _ => helsewhere
    obtain ⟨result, f', _, hrun, hyields⟩ := hends.exists_run lawful live nest
    obtain ⟨as, rfl, hcauses⟩ := yields_resolve_untroubled hyields hanalyzed
    exact ⟨as, f', hrun, hcauses, yields_resolve_ok hyields⟩

end Batch
end BuildAnalysis

/-! A batch in which a target is missing, one is of a rule that is not implemented and one does
well, and a batch of an alias, which is analyzed in another configuration than asked for. -/

namespace BuildAnalysis.BatchFailureSample

open BuiltinRules.AliasSample (aliasLabel binLabel compute compute_interrupts loading loading_proper
  opt optLabel optimized package services start)
open AggregationSample (missingLabel)
open Batch (Analyzed Available ElsewhereAvailable Raises Reached failing resolve)
open FragmentsSample (gccLabel libraries)

def dependency (label : Label) : Dependency :=
  { kind := .attribute "deps", label := label, configuration := some optimized }

/-- The target that is missing comes twice. -/
def mixed : List Dependency :=
  [dependency missingLabel, dependency gccLabel, dependency optLabel, dependency missingLabel]

def history : List (Engine.Call analysisSpace) :=
  [loading [package, libraries], .computeMany compute {} true
    [.target (dependency missingLabel).key, .target (dependency gccLabel).key,
      .target (dependency optLabel).key, .target (dependency aliasLabel).key]]

def session : AnalysisSession := Engine.Session.after start history

theorem reached : Reached (some services) session.store :=
  ⟨start, history, rfl, List.forall_mem_cons.mpr
    ⟨loading_proper _, List.forall_mem_singleton.mpr compute_interrupts⟩, rfl⟩

def resolved (deps : List Dependency) (f : Findings) :
    Except Engine.Suspension (Except Abort (List AnalyzedTarget) × Findings) :=
  (((resolve binLabel (some optimized.key) deps).runFrom f).run.run (Engine.nestWithin compute {})
    { session := session }).1

theorem available_mixed : Available session.store mixed := by
  unfold Available
  decide +kernel

theorem available_alias : Available session.store [dependency aliasLabel] := by
  unfold Available
  decide +kernel

theorem analyzed_alias : ∃ a, Analyzed session.store (dependency aliasLabel) a := by
  have hlabel : (success? (session.store.value? (.target (dependency aliasLabel).key))).map
      TargetValue.label = some optLabel := by
    decide +kernel
  obtain ⟨v, hv, hlabel⟩ := Option.map_eq_some_iff.mp hlabel
  have hopt : TargetAt session.store optLabel opt :=
    ⟨package, success?_eq_some (by decide +kernel), rfl⟩
  exact ⟨⟨v, opt, none⟩, success?_eq_some hv, hlabel ▸ hopt⟩

theorem elsewhereAvailable_alias :
    ElsewhereAvailable session.store [dependency aliasLabel] := by
  intro d hd v hv
  obtain rfl := List.mem_singleton.mp hd
  have hwhere : (success? (session.store.value? (.target (dependency aliasLabel).key))).map
      (fun v => (v.label, v.configuration)) =
        some (optLabel, some ⟨optimized.options.trim ∅⟩) := by
    decide +kernel
  rw [hv] at hwhere
  obtain ⟨hlabel, hconfiguration⟩ := Prod.mk.inj (Option.some.inj hwhere)
  have hcontains : session.store.contains (.configuration ⟨optimized.options.trim ∅⟩) = true := by
    decide +kernel
  refine ⟨fun hpackage => absurd (congrArg Label.package hlabel) hpackage, fun c hc _ => ?_⟩
  obtain rfl := Option.some.inj (hconfiguration.symm.trans hc)
  exact hcontains

theorem live : session.isCancelled = false := by decide +kernel

theorem resolve_raises_failures_mixed :
    (∃ e reported f', resolved mixed {} = .ok (.error (.dependency e reported), f') ∧
      f'.causes = e.causes ∧
      Raises binLabel (some optimized.key) ∅ (failing session.store mixed) e ∧ e.Ranked) ∧
    ∃ as f', resolved [dependency aliasLabel] {} = .ok (.ok as, f') ∧ f'.causes = ∅ ∧
      List.Forall₂ (Analyzed session.store) [dependency aliasLabel] as := by
  have hfailing : failing session.store mixed ≠ [] := by decide +kernel
  obtain ⟨hraised, _⟩ := Batch.resolve_raises_failures (r := { session := session }) live
    (Engine.nestWithin compute {}) binLabel (some optimized.key) {} available_mixed
  obtain ⟨_, hresolved⟩ := Batch.resolve_raises_failures (r := { session := session }) live
    (Engine.nestWithin compute {}) binLabel (some optimized.key) {} available_alias
  obtain ⟨e, reported, f', hrun, hcauses, hraises, hranked⟩ := hraised hfailing
  refine ⟨⟨e, reported, f', hrun, hcauses, hraises, hranked _ reached⟩, ?_⟩
  exact hresolved (List.forall_mem_singleton.mpr analyzed_alias) elsewhereAvailable_alias

end BuildAnalysis.BatchFailureSample
