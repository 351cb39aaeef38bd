import BuildAnalysis.Proofs.Analysis.Causes
import BuildAnalysis.Proofs.Engine.Scratch

/-!
# Loaded targets and the dependencies between them

What an evaluation loads is what the cached packages contain, in the configuration of its key. An
edge that keeps the configuration leads to that configuration, trimmed to the cached fragments of
the edge's label.
-/
namespace BuildAnalysis

open Engine (Store)

variable {services : Option Services} {st : Store analysisSpace} {f f' : Findings}
  {ks : List AnalysisKey}

theorem find?_configurations (hst : Consistent services st) {cs : List ConfigurationKey}
    {found : List (ConfigurationKey × Configuration)}
    (h : st.Reads (S := analysisSpace) AnalysisKey.configuration (fun k c => (k, c)) cs found)
    {c : ConfigurationKey} (hc : c ∈ cs) : Listing.find? c found = some ⟨c⟩ := by
  obtain ⟨v, hv, hfind⟩ := h.find? hc
  rw [hfind, AnalysisKey.value?_configuration hst hv]

namespace TargetKey

variable {k : TargetKey}

/-- Loading takes a package and a configuration, and adds the package to what is found. If the
package is broken, that is a cause. -/
theorem yields_load_noted {loaded : TargetKey.Loaded}
    (h : Staged.Yields st f k.load (.ok loaded) f' ks) :
    ∃ packages configurations, k.loadedFrom packages configurations = .ok loaded ∧
      st.Reads (S := analysisSpace) AnalysisKey.package (fun p r => (p, r)) [k.label.package]
        packages ∧
      st.Reads (S := analysisSpace) AnalysisKey.configuration (fun c r => (c, r))
        k.configuration.toList configurations ∧
      f'.packages = (f.addPackage loaded.package.label).packages ∧
      ∀ message, loaded.package.errorMessage = some message →
        ⟨k.label, k.configuration, .packageLoading,
          s!"package {loaded.package.label} contains errors: {message}"⟩ ∈ f'.causes := by
  unfold load at h
  obtain ⟨⟨packages, configurations⟩, _, _, _, hrequest, h, _⟩ := Staged.Yields.of_request_bind h
  obtain ⟨_, hpackages, hconfigurations⟩ := Engine.Demand.Yields.of_values₂ hrequest
  obtain ⟨loaded', _, _, _, hloaded, hrest, _⟩ := h.of_bind_ok
  obtain ⟨hfrom, rfl, _⟩ := hloaded.of_ofExcept
  have hrest := Staged.Yields.of_modify_bind hrest
  split at hrest
  next message hmessage =>
    have hrest := Staged.Yields.of_modify_bind hrest
    obtain ⟨rfl, rfl, _⟩ := Staged.Yields.of_pure_ok hrest
    refine ⟨packages, configurations, hfrom.symm, hpackages, hconfigurations, rfl,
      fun message' hmessage' => ?_⟩
    obtain rfl := Option.some.inj (hmessage.symm.trans hmessage')
    exact Causes.mem_add.mpr (.inr rfl)
  next hnone =>
    obtain ⟨rfl, rfl, _⟩ := Staged.Yields.of_pure_ok hrest
    refine ⟨packages, configurations, hfrom.symm, hpackages, hconfigurations, rfl,
      fun message hmessage => ?_⟩
    rw [hnone] at hmessage
    cases hmessage

/-- What was loaded for a key; if the package is broken, that is a cause. -/
theorem yields_load (hst : Consistent services st) {loaded : TargetKey.Loaded}
    (h : Staged.Yields st f k.load (.ok loaded) f' ks) :
    st.value? (.package k.label.package) = some (.ok loaded.package) ∧
      loaded.package.target k.label.name = .ok loaded.target ∧
      loaded.configuration = k.configuration.map Configuration.mk ∧
      ∀ message, loaded.package.errorMessage = some message →
        ⟨k.label, k.configuration, .packageLoading,
          s!"package {loaded.package.label} contains errors: {message}"⟩ ∈ f'.causes := by
  obtain ⟨packages, configurations, hloaded, hpackages, hconfigurations, _, hcause⟩ :=
    yields_load_noted h
  obtain ⟨r, hr, hfind⟩ := hpackages.find? List.mem_cons_self
  unfold loadedFrom at hloaded
  rw [Package.among, hfind] at hloaded
  split at hloaded
  next => cases hloaded
  next p hp =>
    obtain rfl : r = .ok p := hp
    split at hloaded
    next => cases hloaded
    next t ht =>
      obtain rfl := Except.ok.inj hloaded
      refine ⟨hr, ht, ?_, hcause⟩
      cases hc : k.configuration with
      | none =>
          rw [hc] at hconfigurations
          cases hconfigurations
          rfl
      | some c =>
          rw [hc] at hconfigurations
          cases hconfigurations with
          | cons hv _ =>
              obtain ⟨v, hv, rfl⟩ := hv
              rw [AnalysisKey.value?_configuration hst hv]
              rfl

theorem yields_load_ok (hst : Consistent services st) {loaded : TargetKey.Loaded}
    (h : Staged.Yields st f k.load (.ok loaded) f' ks) :
    TargetAt st k.label loaded.target ∧
      loaded.configuration = k.configuration.map Configuration.mk := by
  obtain ⟨hpackage, ht, hconfiguration, _⟩ := yields_load hst h
  exact ⟨⟨_, hpackage, ht⟩, hconfiguration⟩

end TargetKey

namespace EdgeSource

variable {s : EdgeSource}

theorem sublist_of_looked {es : List Edge} (look : Edge → Except Failure Target) :
    (((es.map fun e => (e, look e)).filterMap fun e =>
      e.2.toOption.map fun t => (e.1, t)).map Prod.fst).Sublist es := by
  induction es with
  | nil => exact .slnil
  | cons e es ih =>
      simp only [List.map_cons, List.filterMap_cons]
      cases look e with
      | error x => exact ih.cons e
      | ok t => exact ih.cons_cons e

/-- The targets of edges, in edge order; edges whose target is not loaded are left out. -/
theorem yields_loadTargets_ok {es : List Edge} {nodes : List (Edge × Target)}
    (h : Staged.Yields st f (s.loadTargets es) (.ok nodes) f' ks) :
    (nodes.map Prod.fst).Sublist es ∧ ∀ n ∈ nodes, TargetAt st n.1.label n.2 := by
  obtain ⟨loaded, _, _, _, hrequest, h, _⟩ := Staged.Yields.of_request_bind h
  obtain ⟨_, hloaded⟩ := Engine.Demand.Yields.of_values hrequest
  have h := Staged.Yields.of_modify_bind h
  obtain rfl := Except.ok.inj h.of_pure.1
  constructor
  · exact sublist_of_looked _
  · intro n hn
    obtain ⟨p, hp, hn⟩ := List.mem_filterMap.mp hn
    obtain ⟨e, he, rfl⟩ := List.mem_map.mp hp
    have hlooked := lookedUp_among hloaded
      (Listing.mem_distinct.mpr (List.mem_map_of_mem (f := fun e : Edge => e.label.package) he))
    cases hlookup : Package.lookup (Package.among loaded e.label) e.label.name with
    | error x =>
        simp only [hlookup, Except.toOption, Option.map_none] at hn
        cases hn
    | ok t =>
        simp only [hlookup, Except.toOption, Option.map_some] at hn
        obtain rfl := Option.some.inj hn
        exact lookedUp_ok.mp (hlookup ▸ hlooked)

theorem yields_loadTargets {es : List Edge} {r : Except Abort (List (Edge × Target))}
    (h : Staged.Yields st f (s.loadTargets es) r f' ks) :
    (∃ nodes, r = .ok nodes) ∧ (∀ c ∈ f.causes, c ∈ f'.causes) ∧ ∀ e ∈ es, ∃ r,
      LookedUp st e.label r ∧
        ∀ x, r = .error x → ⟨e.label, none, x.bestTag, x.message⟩ ∈ f'.causes := by
  refine ⟨?_, s.loadTargets_keeps es f r f' ks h, fun e he => ?_⟩
  all_goals
    obtain ⟨loaded, _, _, _, hrequest, h, _⟩ := Staged.Yields.of_request_bind h
    obtain ⟨rfl, rfl, _⟩ := (Staged.Yields.of_modify_bind h).of_pure
  · exact ⟨_, rfl⟩
  · obtain ⟨_, hloaded⟩ := Engine.Demand.Yields.of_values hrequest
    have hmem : e.label.package ∈ Listing.distinct (es.map fun e => e.label.package) :=
      Listing.mem_distinct.mpr (List.mem_map.mpr ⟨e, he, rfl⟩)
    refine ⟨_, lookedUp_among hloaded hmem, fun x hx => ?_⟩
    exact s.mem_foldl_noteLookup.mpr (.inr ⟨_, List.mem_map.mpr ⟨e, he, rfl⟩, x, hx, rfl⟩)

/-- An edge that keeps the configuration leads to it, trimmed, if its target has one. -/
theorem configurationsOf_keep {parent : Configuration}
    {fragments : List (Label × Except Failure (SortedSet String))} {e : Edge} {t : Target}
    (ht : t.isConfigurable = true) (he : e.transition = .keep) :
    s.configurationsOf parent fragments e t =
      .ok [(e, none, some (trimmed (Listing.find? e.label fragments) parent.options))] := by
  simp [configurationsOf, ht, he, Transition.apply]

theorem yields_dependencies_ok (hst : Consistent services st) {parent : Configuration}
    (hparent : s.configuration = some parent) {nodes : List (Edge × Target)}
    {deps : List Dependency} (h : Staged.Yields st f (s.dependencies nodes) (.ok deps) f' ks) :
    ∃ fragments expanded,
      (∀ n ∈ nodes, n.2.isConfigurable = true → ∃ r, st.value? (.fragments n.1.label) = some r ∧
        Listing.find? n.1.label fragments = some r) ∧
      List.Forall₂ (fun n x => s.configurationsOf parent fragments n.1 n.2 = .ok x)
        nodes expanded ∧
      deps = Listing.distinct (expanded.flatten.map fun x =>
        dependency x.1 x.2.1 (x.2.2.map Configuration.mk)) := by
  unfold dependencies at h
  rw [hparent] at h
  obtain ⟨fragments, _, _, _, hfragments, h, _⟩ := Staged.Yields.of_request_bind h
  obtain ⟨_, hfragments⟩ := Engine.Demand.Yields.of_values hfragments
  obtain ⟨expanded, _, _, _, hexpanded, h, _⟩ := h.of_bind_ok
  obtain ⟨hexpanded, _, _⟩ := hexpanded.of_ofExcept
  obtain ⟨configurations, _, _, _, hconfigurations, h, _⟩ := Staged.Yields.of_request_bind h
  obtain ⟨_, hconfigurations⟩ := Engine.Demand.Yields.of_values hconfigurations
  obtain rfl := Except.ok.inj h.of_pure.1
  refine ⟨fragments, expanded, fun n hn ht => ?_, ?_, ?_⟩
  · refine hfragments.find? (Listing.mem_distinct.mpr ?_)
    exact List.mem_map.mpr ⟨n, List.mem_filter.mpr ⟨hn, ht⟩, rfl⟩
  · exact List.forall₂_map_left_iff.mp (sequence_eq_ok hexpanded.symm)
  · congr 1
    refine List.map_congr_left fun x hx => ?_
    cases hc : x.2.2 with
    | none => rfl
    | some c =>
        have hmem : c ∈ Listing.distinct (expanded.flatten.filterMap fun e => e.2.2) :=
          Listing.mem_distinct.mpr (List.mem_filterMap.mpr ⟨x, hx, hc⟩)
        rw [Option.bind_some, find?_configurations hst hconfigurations hmem]
        rfl

end EdgeSource

namespace AnalysisKey

/-- The fragments of a label are those of its target and of everything below it, which was cached
before; there are none if the target cannot be loaded. -/
theorem value?_fragments_looked (hst : Consistent services st) {label : Label}
    {r : Except Failure (SortedSet String)} (hr : st.value? (.fragments label) = some r) :
    (∃ e, r = .error e ∧ LookedUp st label (.error e)) ∨
      ∃ t below, TargetAt st label t ∧
        st.Reads (S := analysisSpace) AnalysisKey.fragments (fun l r => (l, r))
          t.unconfiguredDeps below ∧
        r = .ok (below.foldl (fun fs e =>
          match e.2 with
          | .ok more => fs.union more
          | .error _ => fs) (ownFragments t)) ∧
        ∀ l ∈ t.unconfiguredDeps,
          Store.rank (S := analysisSpace) st (.fragments l) < st.rank (.fragments label) := by
  obtain ⟨deps, ks, es, hmem, hdeps, h⟩ := evaluates_of_value? hst rfl hr
  have hy : Engine.Demand.Yields st (computeFragments label) r ks es := h.yields
  obtain ⟨loaded, _, _, _, _, hloaded, hy, hks, _⟩ := hy.of_bind
  obtain ⟨_, hloaded⟩ := hloaded.of_value
  cases hlookup : Package.lookup loaded label.name with
  | error e =>
      rw [hlookup] at hy
      exact .inl ⟨e, hy.of_pure.1, loaded, hloaded, hlookup⟩
  | ok t =>
      rw [hlookup] at hy
      obtain ⟨below, _, _, _, _, hbelow, hy, hks', _⟩ := hy.of_bind
      obtain ⟨hrequested, hbelow⟩ := Engine.Demand.Yields.of_values hbelow
      refine .inr ⟨t, below, lookedUp_ok.mp ⟨loaded, hloaded, hlookup⟩, hbelow, hy.of_pure.1,
        fun l hl => hst.rank_lt hmem ((hdeps _).mpr ?_)⟩
      rw [hks, hks', hrequested]
      exact List.mem_append_right _ (List.mem_append_left _ (List.mem_map_of_mem hl))

theorem value?_fragments (hst : Consistent services st) {label : Label} {t : Target}
    (ht : TargetAt st label t) {r : Except Failure (SortedSet String)}
    (hr : st.value? (.fragments label) = some r) :
    ∃ below, st.Reads (S := analysisSpace) AnalysisKey.fragments (fun l r => (l, r))
        t.unconfiguredDeps below ∧
      r = .ok (below.foldl (fun fs e =>
        match e.2 with
        | .ok more => fs.union more
        | .error _ => fs) (ownFragments t)) := by
  rcases value?_fragments_looked hst hr with ⟨e, _, he⟩ | ⟨t', below, ht', hbelow, hr, _⟩
  · cases (lookedUp_ok.mpr ht).unique he
  · obtain rfl := ht.eq ht'
    exact ⟨below, hbelow, hr⟩

theorem value?_fragments_of_leaf (hst : Consistent services st) {label : Label} {t : Target}
    (ht : TargetAt st label t) (hdeps : t.unconfiguredDeps = [])
    {r : Except Failure (SortedSet String)} (hr : st.value? (.fragments label) = some r) :
    r = .ok (ownFragments t) := by
  obtain ⟨below, hbelow, rfl⟩ := value?_fragments hst ht hr
  rw [hdeps] at hbelow
  cases hbelow
  rfl

end AnalysisKey
end BuildAnalysis
