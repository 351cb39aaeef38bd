import BuildAnalysis.Proofs.Analysis.Condition

/-!
# What a success rests on

A configured target is cached with a value only if nothing that its evaluation looked at failed: its
package was loaded without errors and holds it, its conditions and its toolchains were resolved, the
targets of its edges were loaded and its dependencies have values. What an evaluation collects on
its way and does not raise at once makes it fail before the value is built.
-/
namespace BuildAnalysis

open Engine (Store)

variable {services : Option Services} {st : Store analysisSpace} {f f' : Findings}
  {ks : List AnalysisKey}

/-- The toolchains of a target of a rule in a configuration are those that are cached for its
execution groups; a rule may do without them. Other targets have none. -/
def ToolchainsAt (st : Store analysisSpace) (t : Target) (platform : Option Label)
    (configuration : Option Configuration) (contexts : Option ToolchainContexts) : Prop :=
  match configuration, t.rule? with
  | some c, some r => ∃ groups, ToolchainContexts.groupsOf t r c = .ok groups ∧
    if r.usesToolchainResolution then
      ∃ cs, contexts = some ⟨groups, some cs⟩ ∧ List.Forall₂ (fun g e => e.1 = g.1 ∧
        st.value? (.toolchains (ToolchainContexts.keyOf t c platform g)) = some (.ok e.2))
          groups.groups cs
    else contexts = some ⟨groups, none⟩
  | _, _ => contexts = none

theorem ToolchainContexts.collect_eq_ok {rs : List (String × Except Failure ToolchainContext)}
    {cs : List (String × ToolchainContext)} (h : collect rs = .ok cs) :
    List.Forall₂ (fun r e => e.1 = r.1 ∧ r.2 = .ok e.2) rs cs := by
  induction rs generalizing cs with
  | nil =>
      cases h
      exact .nil
  | cons r rs ih =>
      obtain ⟨name, r⟩ := r
      simp only [collect] at h
      split at h
      next => cases h
      next c =>
        split at h
        next => cases h
        next cs' hcs =>
          cases h
          exact .cons ⟨rfl, rfl⟩ (ih hcs)

theorem ToolchainContexts.forall₂_groups {k : String × ExecGroup → ToolchainKey}
    {groups : List (String × ExecGroup)}
    {results : List (ToolchainKey × Except Failure ToolchainContext)}
    {cs : List (String × ToolchainContext)}
    (hresults : st.Reads (S := analysisSpace) AnalysisKey.toolchains (fun k r => (k, r))
      (groups.map k) results)
    (hcs : List.Forall₂ (fun r e => e.1 = r.1 ∧ r.2 = .ok e.2)
      ((groups.map Prod.fst).zip (results.map Prod.snd)) cs) :
    List.Forall₂ (fun g e => e.1 = g.1 ∧ st.value? (.toolchains (k g)) = some (.ok e.2))
      groups cs := by
  induction groups generalizing results cs with
  | nil =>
      cases hcs
      exact .nil
  | cons g groups ih =>
      cases hresults with
      | cons hv hresults =>
        obtain ⟨v, hv, rfl⟩ := hv
        cases hcs with
        | cons hc hcs =>
          obtain ⟨hname, rfl⟩ := hc
          exact .cons ⟨hname, hv⟩ (ih hresults hcs)

/-- Toolchains are resolved for every group, unless the rule does without. -/
theorem ToolchainContexts.yields_resolve_ok {t : Target} {r : Rule} {c : Configuration}
    {platform : Option Label} {resolved : ToolchainContexts}
    (h : Staged.Yields st f (resolve t r c platform) (.ok resolved) f' ks) :
    ∃ groups, groupsOf t r c = .ok groups ∧
      if r.usesToolchainResolution then
        ∃ cs, resolved = ⟨groups, some cs⟩ ∧ List.Forall₂ (fun g e => e.1 = g.1 ∧
          st.value? (.toolchains (keyOf t c platform g)) = some (.ok e.2)) groups.groups cs
      else resolved = ⟨groups, none⟩ := by
  obtain ⟨groups, _, _, _, hgroups, h, _⟩ := h.of_bind_ok
  have hgroups := hgroups.of_ofExcept.1
  cases hgroupsOf : groupsOf t r c with
  | error e =>
      rw [hgroupsOf] at hgroups
      cases hgroups
  | ok groups' =>
      rw [hgroupsOf] at hgroups
      obtain rfl := Except.ok.inj hgroups
      refine ⟨groups, rfl, ?_⟩
      split at h
      next hopted =>
        rw [if_neg (by simpa using hopted)]
        exact (Staged.Yields.of_pure_ok h).1
      next huses =>
        rw [if_pos (by simpa using huses)]
        obtain ⟨results, _, _, _, hresults, h, _⟩ := Staged.Yields.of_request_bind h
        obtain ⟨_, hresults⟩ := Engine.Demand.Yields.of_values hresults
        obtain ⟨cs, _, _, _, hcs, h, _⟩ := h.of_bind_ok
        exact ⟨cs, (Staged.Yields.of_pure_ok h).1, forall₂_groups hresults
          (collect_eq_ok hcs.of_ofExcept.1.symm)⟩

theorem TargetKey.yields_toolchains_ok {k : TargetKey} {loaded : TargetKey.Loaded}
    {contexts : Option ToolchainContexts}
    (h : Staged.Yields st f (k.toolchains loaded) (.ok contexts) f' ks) :
    ToolchainsAt st loaded.target k.executionPlatform loaded.configuration contexts := by
  unfold toolchains at h
  split at h
  next c r hc hr =>
    unfold ToolchainsAt
    rw [hc, hr]
    obtain ⟨resolved, _, _, _, hresolved, h, _⟩ := h.of_bind_ok
    have h := Staged.Yields.of_modify_bind h
    obtain ⟨rfl, _, _⟩ := Staged.Yields.of_pure_ok h
    obtain ⟨groups, hgroups, hcontexts⟩ := ToolchainContexts.yields_resolve_ok hresolved
    refine ⟨groups, hgroups, ?_⟩
    split at hcontexts
    next huses =>
      rw [if_pos huses]
      obtain ⟨cs, rfl, hcs⟩ := hcontexts
      exact ⟨cs, rfl, hcs⟩
    next hopted =>
      rw [if_neg hopted]
      exact congrArg some hcontexts
  next hnone =>
    obtain ⟨rfl, _, _⟩ := Staged.Yields.of_pure_ok h
    unfold ToolchainsAt
    split
    next c r hc hr => exact absurd hr (hnone c r hc)
    next => rfl

/-- The edges of a bundle were looked up; what could not be loaded is a cause. -/
theorem EdgeSource.yields_bundle_edges {s : EdgeSource} {b : DependencyBundle}
    (h : Staged.Yields st f s.bundle (.ok b) f' ks) :
    ∃ es, s.edges = .ok es ∧ (∀ c ∈ f.causes, c ∈ f'.causes) ∧ ∀ e ∈ es, ∃ r,
      LookedUp st e.label r ∧
        ∀ x, r = .error x → ⟨e.label, none, x.bestTag, x.message⟩ ∈ f'.causes := by
  rw [bundle_eq] at h
  obtain ⟨es, f₁, _, _, hes, hrest, _⟩ := h.of_bind_ok
  obtain ⟨hedges, rfl, _⟩ := hes.of_ofExcept
  obtain ⟨nodes, f₂, _, _, hnodes, hrest, _⟩ := hrest.of_bind_ok
  obtain ⟨deps, f₃, _, _, hdeps, hfan, _⟩ := hrest.of_bind_ok
  obtain ⟨_, hkept, hlooked⟩ := yields_loadTargets hnodes
  have hkeeps : ∀ c ∈ f₂.causes, c ∈ f'.causes := fun c hc =>
    s.fanOut_keeps deps f₃ _ f' _ hfan c (s.dependencies_keeps nodes f₂ _ f₃ _ hdeps c hc)
  refine ⟨es, hedges.symm, fun c hc => hkeeps c (hkept c hc), fun e he => ?_⟩
  obtain ⟨r, hr, hcause⟩ := hlooked e he
  exact ⟨r, hr, fun x hx => hkeeps _ (hcause x hx)⟩

theorem EdgeSource.yields_bundle_keys {s : EdgeSource} {b : DependencyBundle}
    (h : Staged.Yields st f s.bundle (.ok b) f' ks) :
    ∀ d ∈ b.keys, ∃ w, st.value? (.target d) = some (.ok w) := by
  intro d hd
  obtain ⟨_, _, ds, values, values', _, _, _, _, hvalues, _, hentries⟩ := yields_bundle_ok h
  obtain ⟨e, he, rfl⟩ := List.mem_map.mp (Listing.mem_distinct.mp hd)
  rw [hentries] at he
  obtain ⟨a, _, ha, _⟩ := Engine.exists_of_mem_left hvalues (List.of_mem_zip he).1
  exact ⟨_, ha⟩

/-- The value of a configured target rests on a package and a target in it, on how its conditions
turned out, on toolchains and on edges, and none of these failed. -/
structure RestsOn (st : Store analysisSpace) (k : TargetKey) (v : TargetValue) (p : Package)
    (t : Target) (conditions : Conditions) (contexts : Option ToolchainContexts)
    (es : List Edge) : Prop where
  package : st.value? (.package k.label.package) = some (.ok p)
  intact : p.containsErrors = false
  target : p.target k.label.name = .ok t
  fits : t.isConfigurable = k.configuration.isSome
  dependencies : ∀ d ∈ v.dependencies, ∃ w, st.value? (.target d) = some (.ok w)
  /-- In a configuration every condition that the target consults was recorded. -/
  consulted : ∀ c, k.configuration = some c → ∀ key ∈ t.selectKeys,
    ∃ m, conditions.get? key = some m ∧ Conditions.Recorded st ⟨c⟩ key m
  unconditional : k.configuration = none → conditions = ∅
  toolchains :
    ToolchainsAt st t k.executionPlatform (k.configuration.map Configuration.mk) contexts
  edges : EdgeSource.edges ⟨t, k.configuration.map Configuration.mk, conditions, contexts, none⟩ =
    .ok es
  loaded : ∀ e ∈ es, ∃ u, TargetAt st e.label u

theorem TargetKey.restsOn_of_value? (hst : Consistent services st) {k : TargetKey}
    {v : TargetValue} (hv : st.value? (.target k) = some (.ok v))
    (nonempty : v ≠ .empty k.label k.configuration) :
    ∃ p t conditions contexts es, RestsOn st k v p t conditions contexts es := by
  obtain ⟨s, found, _, _, h⟩ := value?_target hst hv
  obtain ⟨loaded, f₁, ⟨_, hload⟩, h⟩ := yields_evaluate_ok h
  obtain ⟨hpackage, htarget, hconfiguration, hbroken⟩ := yields_load hst hload
  split at h
  next => exact absurd h nonempty
  next hfits =>
    obtain ⟨contexts, conditions, deps, value, f₂, f₃, f₄, ⟨_, hcontexts⟩, ⟨_, hconditions⟩,
      ⟨_, hbundle⟩, hnone, _, hvalue⟩ := h
    obtain ⟨es, hes, hkept, hlooked⟩ := EdgeSource.yields_bundle_edges hbundle
    -- A value is built only without causes, and none is lost on the way.
    have hcauses : ∀ c, c ∉ f₄.causes := fun c hc => by
      rw [Causes.isEmpty_eq_false hc] at hnone
      cases hnone
    have hnone₁ : ∀ c, c ∉ f₁.causes := fun c hc => hcauses c <| hkept c <|
      Conditions.ofTarget_keeps _ _ f₂ _ f₃ _ hconditions c
        (k.toolchains_keeps loaded f₁ _ f₂ _ hcontexts c hc)
    rw [hconfiguration] at hfits hconditions
    exact ⟨loaded.package, loaded.target, conditions, contexts, es,
      { package := hpackage
        intact := by
          cases hmessage : loaded.package.errorMessage with
          | none => rw [Package.containsErrors, hmessage]; rfl
          | some message => exact absurd (hbroken message hmessage) (hnone₁ _)
        target := htarget
        fits := by simpa using hfits
        dependencies := fun d hd => by
          rw [hvalue] at hd
          exact EdgeSource.yields_bundle_keys hbundle d hd
        consulted := fun c hc key hkey => by
          rw [hc] at hconditions
          exact Conditions.yields_ofTarget_ok hconditions hkey
        unconditional := fun hc => by
          rw [hc] at hconditions
          exact (Staged.Yields.of_pure_ok hconditions).1
        toolchains := hconfiguration ▸ yields_toolchains_ok hcontexts
        edges := by rw [← hconfiguration]; exact hes
        loaded := fun e he => by
          obtain ⟨r, hr, hcause⟩ := hlooked e he
          cases r with
          | ok u => exact ⟨u, lookedUp_ok.mp hr⟩
          | error x => exact absurd (hcause x rfl) (hcauses _) }⟩

/-- Let an engine begin with nothing and go through any history. If a configured target is cached
with a value, other than the empty one of a configuration that does not fit, then its package was
loaded without errors and holds it, all its dependencies are cached with values, the targets of all
its edges were loaded, and in a configuration all conditions that it consults were recorded and its
toolchains resolved for every execution group, unless its rule does without. -/
theorem success_rests_on {start : AnalysisSession} (empty : start.store = {})
    {history : List (Engine.Call analysisSpace)}
    (proper : ∀ call ∈ history, call.Proper (AnalysisKey.computation services))
    {s : AnalysisSession} (hs : s = start.after history) {k : TargetKey} {v : TargetValue}
    (hv : s.store.value? (.target k) = some (.ok v))
    (nonempty : v ≠ .empty k.label k.configuration) :
    ∃ p t conditions contexts es, RestsOn s.store k v p t conditions contexts es :=
  TargetKey.restsOn_of_value? (consistent_after empty proper (congrArg _ hs)) hv nonempty

end BuildAnalysis

/-! A target that chooses what it stands for, with toolchains. -/

namespace BuildAnalysis.UntroubledSample

open BuiltinRules BuiltinRules.AliasSample

def choiceLabel : Label := ⟨optLabel.package, ⟨"choice", rfl, by decide⟩⟩

theorem nodup_actual :
    ((Rule.constraintsDecl :: [.ofDecl (.dep "actual")]).map fun a => a.name).Nodup := by decide

def choice : Target :=
  { label := choiceLabel
    kind := .rule { rule aliasId [.ofDecl (.dep "actual")] nodup_actual with
      usesToolchainResolution := true }
    values := [("actual", .select [(optLabel, .label optLabel)] none)] }

def package : Package where
  label := optLabel.package
  targets := [opt, choice]
  owned := by decide
  distinct := by decide

def key : TargetKey := ⟨choiceLabel, some optimized.key, none⟩

def history : List (Engine.Call analysisSpace) :=
  [loading [package], .commit [.inject (S := analysisSpace) .registry {}],
    .compute compute {} true (.target key)]

def session : AnalysisSession := Engine.Session.after start history

theorem history_proper : ∀ call ∈ history, call.Proper compute := by
  intro call hcall
  simp only [history, List.mem_cons, List.not_mem_nil, or_false] at hcall
  rcases hcall with rfl | rfl | rfl
  · exact loading_proper _
  · exact List.forall_mem_singleton.mpr rfl
  · exact compute_interrupts

theorem value?_key : ∃ v, session.store.value? (.target key) = some (.ok v) ∧
    v ≠ .empty key.label key.configuration := by
  have hkind : (success? (session.store.value? (.target key))).map TargetValue.isEmpty =
      some false := by
    decide +kernel
  obtain ⟨v, hv, hnonempty⟩ := Option.map_eq_some_iff.mp hkind
  refine ⟨v, success?_eq_some hv, ?_⟩
  rintro rfl
  cases hnonempty

theorem success_rests_on_choice : ∃ v, session.store.value? (.target key) = some (.ok v) ∧
    v ≠ .empty key.label key.configuration ∧
    ∃ p t conditions contexts es, RestsOn session.store key v p t conditions contexts es := by
  obtain ⟨v, hv, hnonempty⟩ := value?_key
  have hsession : session = Engine.Session.after start history := rfl
  exact ⟨v, hv, hnonempty, success_rests_on rfl history_proper hsession hv hnonempty⟩

end BuildAnalysis.UntroubledSample
