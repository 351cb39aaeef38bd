import BuildAnalysis.Proofs.Analysis.Expansion

/-!
# Loading resolved toolchains

The toolchains of a target are resolved before its dependencies are known and looked up among the
dependencies afterwards. In between each resolved implementation is an edge of its group, with a
transition that leads to exactly one dependency and without aspects. If no edge was left out on the
way, the dependency is there with its value, so an evaluation that gets as far as loading its
toolchains always loads them.
-/
namespace BuildAnalysis

open Engine (Store)

variable {services : Option Services} {st : Store analysisSpace} {f f' : Findings}
  {ks : List AnalysisKey}

namespace EdgeSource

variable {s : EdgeSource} {es : List Edge}

/-- An attribute is never followed on behalf of a group. -/
theorem kind_of_followed {a : Followed} (ha : a ∈ s.followed) (group : String) :
    a.kind ≠ .toolchain group := by
  unfold followed at ha
  split at ha
  all_goals
    obtain ⟨_, _, rfl⟩ := List.mem_map.mp ha
    exact fun h => by cases h

theorem Collects.own (h : s.Collects es) {e : Edge} (he : e ∈ es) {group : String}
    (hkind : e.kind = .toolchain group) :
    e.aspects = [] ∧ (e.transition = .keep ∨ e.transition = .dropFlags) := by
  obtain ⟨attributes, groups, hattributes, hgroups, rfl⟩ := h
  rcases List.mem_append.mp he with he | he
  · obtain ⟨part, hpart, he⟩ := List.mem_flatten.mp he
    obtain ⟨a, ha, hedges⟩ := Engine.exists_of_mem_right hattributes hpart
    cases hedges with
    | plain _ => cases he
    | labels _ _ _ own => exact absurd ((own e he).1.symm.trans hkind) (kind_of_followed ha group)
  · obtain ⟨part, hpart, he⟩ := List.mem_flatten.mp he
    obtain ⟨g, _, hedges⟩ := Engine.exists_of_mem_right hgroups hpart
    exact ⟨(hedges.own e he).2, hedges.transition he⟩

theorem Collects.exists_edge (h : s.Collects es) {g : String × ToolchainContext}
    (hg : g ∈ s.resolvedToolchains) {label : Label} (hlabel : label ∈ g.2.labels) :
    ∃ e ∈ es, e.kind = .toolchain g.1 ∧ e.label = label := by
  obtain ⟨attributes, groups, _, hgroups, rfl⟩ := h
  obtain ⟨part, hpart, hedges⟩ := Engine.exists_of_mem_left hgroups hg
  rw [← hedges.labels] at hlabel
  obtain ⟨e, he, hlabel⟩ := List.mem_map.mp hlabel
  exact ⟨e, List.mem_append_right _ (List.mem_flatten.mpr ⟨part, hpart, he⟩),
    (hedges.own e he).1, hlabel⟩

/-- An edge whose transition always leads to options expands to a dependency. -/
theorem Expands.ne_nil {e : Edge} {ds : List Dependency} (h : s.Expands st e ds)
    (htransition : e.transition = .keep ∨ e.transition = .dropFlags) : ds ≠ [] := by
  cases h with
  | split hleads =>
      obtain ⟨_, _, _, _, _, happly⟩ := hleads
      rcases htransition with ht | ht
      all_goals
        rw [ht] at happly
        cases happly
  | _ => exact List.cons_ne_nil _ _

section Expanded

variable {parts : List (List Dependency)} {deps : List Dependency}
  (h : s.Expanded st es parts deps)
include h

/-- Nothing is left out of what edges expand to but repetitions. -/
theorem Expanded.mem_iff {d : Dependency} : d ∈ deps ↔ ∃ ds ∈ parts, d ∈ ds := by
  obtain ⟨_, h⟩ := h
  rw [← List.mem_flatten]
  split at h
  next => rw [h]
  next => rw [h, Listing.mem_distinct]

theorem Expanded.exists_edge {d : Dependency} (hd : d ∈ deps) :
    ∃ e ∈ es, ∃ key c, d = dependency e key c := by
  obtain ⟨ds, hds, hd⟩ := h.mem_iff.mp hd
  obtain ⟨e, he, hexpands⟩ := Engine.exists_of_mem_right h.1 hds
  exact ⟨e, he, hexpands.of_mem hd⟩

/-- An edge that keeps the configuration or drops its flags is there as a dependency. -/
theorem Expanded.exists_dependency {e : Edge} (he : e ∈ es)
    (htransition : e.transition = .keep ∨ e.transition = .dropFlags) :
    ∃ d ∈ deps, d.kind = e.kind ∧ d.label = e.label := by
  obtain ⟨ds, hds, hexpands⟩ := Engine.exists_of_mem_left h.1 he
  obtain ⟨d, hd⟩ := List.exists_mem_of_ne_nil ds (hexpands.ne_nil htransition)
  obtain ⟨_, _, rfl⟩ := hexpands.of_mem hd
  exact ⟨_, h.mem_iff.mpr ⟨ds, hds, hd⟩, rfl, rfl⟩

end Expanded

theorem Supplied.analyzed {d : Dependency} {t : AnalyzedTarget} (h : Supplied st d t)
    (hnone : d.aspects = []) : Batch.Analyzed st d t := by
  obtain ⟨own, hown, values, providers, hvalues, hproviders, rfl⟩ := h
  have hkeys : AspectKey.ofDependency d own = [] := by
    simp [AspectKey.ofDependency, hnone]
  rw [hkeys] at hvalues
  cases hvalues
  obtain rfl := Except.ok.inj hproviders
  exact hown

end EdgeSource

namespace LoadedToolchains

/-- What is loaded for a toolchain of a group: the analyzed value of a dependency of the group on
the implementation that was resolved for the type. -/
def LoadedFor (st : Store analysisSpace) (deps : DependencyBundle) (group : String)
    (resolved : Label × Label) (t : Label × AnalyzedTarget) : Prop :=
  t.1 = resolved.1 ∧ ∃ d, (d, t.2) ∈ deps.entries ∧ d.kind = .toolchain group ∧
    d.label = resolved.2 ∧ Batch.Analyzed st d t.2

structure GroupLoaded (st : Store analysisSpace) (deps : DependencyBundle)
    (g : String × ToolchainContext) (l : String × LoadedToolchains) : Prop where
  name : l.1 = g.1
  executionPlatform : l.2.executionPlatform = g.2.executionPlatform
  targetPlatform : l.2.targetPlatform = g.2.targetPlatform
  toolchains : List.Forall₂ (LoadedFor st deps g.1) g.2.implementations.entries l.2.toolchains

variable {deps : DependencyBundle}

/-- A bundle serves a group if it has an analyzed dependency for each implementation of it. -/
def Serves (st : Store analysisSpace) (deps : DependencyBundle) (group : String)
    (label : Label) : Prop :=
  ∃ t, dependencyOn? group label deps = some t ∧ ∃ d, (d, t) ∈ deps.entries ∧
    d.kind = .toolchain group ∧ d.label = label ∧ Batch.Analyzed st d t

theorem pairUp_of_serves {group : String} {resolved : List (Label × Label)}
    (h : ∀ e ∈ resolved, Serves st deps group e.2) :
    ∃ ts, pairUp group deps resolved = .ok ts ∧
      List.Forall₂ (LoadedFor st deps group) resolved ts := by
  induction resolved with
  | nil => exact ⟨[], rfl, .nil⟩
  | cons e resolved ih =>
      obtain ⟨⟨t, ht, hown⟩, hrest⟩ := List.forall_mem_cons.mp h
      obtain ⟨ts, hts, hloaded⟩ := ih hrest
      refine ⟨(e.1, t) :: ts, ?_, .cons ⟨rfl, hown⟩ hloaded⟩
      simp only [pairUp, ht, hts]

theorem ofContexts_of_serves {cs : List (String × ToolchainContext)}
    (h : ∀ g ∈ cs, ∀ e ∈ g.2.implementations.entries, Serves st deps g.1 e.2) :
    ∃ loaded, ofContexts deps cs = .ok loaded ∧
      List.Forall₂ (GroupLoaded st deps) cs loaded := by
  induction cs with
  | nil => exact ⟨[], rfl, .nil⟩
  | cons g cs ih =>
      obtain ⟨hown, hrest⟩ := List.forall_mem_cons.mp h
      obtain ⟨ts, hts, hpaired⟩ := pairUp_of_serves hown
      obtain ⟨loaded, hloaded, hgroups⟩ := ih hrest
      refine ⟨(g.1, ⟨g.2.executionPlatform, g.2.targetPlatform, ts⟩) :: loaded, ?_,
        .cons ⟨rfl, rfl, rfl, hpaired⟩ hgroups⟩
      simp only [ofContexts, hts, hloaded]

end LoadedToolchains

namespace TargetKey

variable {k : TargetKey} {x : Fan}

/-- The evaluation of a target up to where its toolchains are loaded: what it has fanned out to,
with the values of the dependencies. -/
def arrive (k : TargetKey) : Evaluation (Option (Fan × DependencyBundle)) := do
  match ← k.prepare with
  | none => return none
  | some x =>
    let deps ← k.fanOut x
    return some (x, deps)

theorem evaluate_eq_arrive (k : TargetKey) (services : Services) : k.evaluate services = (do
    match ← k.arrive with
    | none => return .empty k.label k.configuration
    | some p => k.conclude services p.1.loaded p.1.conditions p.1.contexts p.2) := by
  rw [evaluate_eq_fanOut]
  unfold arrive
  rw [bind_assoc]
  refine bind_congr fun fan => ?_
  cases fan with
  | none => rfl
  | some x => simp only [bind_assoc, pure_bind]

theorem arrive_has {D : {α : Type} → Demand α → Prop} [Engine.Demand.Composed D] (k : TargetKey) :
    Staged.Has D k.arrive := by
  refine .bind k.prepare_has fun fan => ?_
  cases fan with
  | none => exact .pure _
  | some x => exact .bind (k.fanOut_has x) fun _ => .pure _

/-- Without causes, what a target fans out to is everything that its edges expand to. -/
theorem yields_prepare_expanded (hst : Consistent services st)
    (h : Staged.Yields st f k.prepare (.ok (some x)) f' ks) (hnone : ∀ c, c ∉ f'.causes) :
    x.source.Collects x.edges ∧
      ∃ parts, x.source.Expanded st x.edges parts x.dependencies := by
  obtain ⟨loaded, _, _, _, _, h, _⟩ := h.of_bind_ok
  split at h
  next =>
    obtain ⟨_, _, _, _, _, h, _⟩ := Staged.Yields.of_request_bind h
    cases (Staged.Yields.of_pure_ok h).1
  next =>
    obtain ⟨contexts, _, _, _, _, h, _⟩ := h.of_bind_ok
    obtain ⟨conditions, _, _, _, _, h, _⟩ := h.of_bind_ok
    obtain ⟨es, _, _, _, hes, h, _⟩ := h.of_bind_ok
    obtain ⟨nodes, f₁, _, _, hnodes, h, _⟩ := h.of_bind_ok
    obtain ⟨deps, f₂, _, _, hdeps, h, _⟩ := h.of_bind_ok
    obtain ⟨hx, rfl, _⟩ := Staged.Yields.of_pure_ok h
    obtain rfl := Option.some.inj hx
    refine ⟨EdgeSource.collects_of_edges hes.of_ofExcept.1.symm,
      EdgeSource.yields_edges_expanded hst hnodes (fun c hc => hnone c ?_) hdeps⟩
    exact EdgeSource.dependencies_keeps _ nodes f₁ _ f' _ hdeps c hc

theorem yields_fanOut_ok {b : DependencyBundle}
    (h : Staged.Yields st f (k.fanOut x) (.ok b) f' ks) :
    (∃ ks₁, Staged.Yields st f (x.source.fanOut x.dependencies) (.ok b) f' ks₁) ∧
      f'.causes.isEmpty = true := by
  obtain ⟨bundle, f₁, ks₁, _, hfan, h, _⟩ := h.of_bind_ok
  have h := Staged.Yields.of_get_bind h
  split at h
  next => cases (Staged.Yields.of_throw_bind (Staged.Yields.of_get_bind h)).1
  next hnone =>
    obtain ⟨rfl, rfl, _⟩ := Staged.Yields.of_pure_ok h
    exact ⟨⟨_, hfan⟩, by simpa using hnone⟩

/-- An evaluation that arrives has gone through both parts, without causes. -/
theorem yields_arrive_ok {deps : DependencyBundle}
    (h : Staged.Yields st f k.arrive (.ok (some (x, deps))) f' ks) :
    ∃ f₁, (∃ ks₁, Staged.Yields st f k.prepare (.ok (some x)) f₁ ks₁) ∧
      (∃ ks₂, Staged.Yields st f₁ (x.source.fanOut x.dependencies) (.ok deps) f' ks₂) ∧
      f'.causes.isEmpty = true := by
  obtain ⟨fan, f₁, ks₁, _, hprepare, h, _⟩ := h.of_bind_ok
  cases fan with
  | none => cases (Staged.Yields.of_pure_ok h).1
  | some y =>
      obtain ⟨b, _, _, _, hfan, h, _⟩ := h.of_bind_ok
      obtain ⟨hsame, rfl, _⟩ := Staged.Yields.of_pure_ok h
      obtain ⟨rfl, rfl⟩ := Prod.mk.inj (Option.some.inj hsame)
      exact ⟨f₁, ⟨ks₁, hprepare⟩, yields_fanOut_ok hfan⟩

/-- Dependencies that everything expands to serve each resolved toolchain. -/
theorem serves_of_expanded {parts : List (List Dependency)} {deps : DependencyBundle}
    (hedges : x.source.Collects x.edges)
    (hexpanded : x.source.Expanded st x.edges parts (deps.entries.map Prod.fst))
    (hsupplied : ∀ e ∈ deps.entries, EdgeSource.Supplied st e.1 e.2)
    {g : String × ToolchainContext} (hg : g ∈ x.source.resolvedToolchains)
    {label : Label} (hlabel : label ∈ g.2.labels) :
    LoadedToolchains.Serves st deps g.1 label := by
  obtain ⟨e, he, hkind, rfl⟩ := hedges.exists_edge hg hlabel
  obtain ⟨d, hd, hdkind, hdlabel⟩ :=
    hexpanded.exists_dependency he (hedges.own he hkind).2
  obtain ⟨entry, hentry, rfl⟩ := List.mem_map.mp hd
  -- The lookup finds an entry of the group and the label, if not this one then an earlier one.
  have hfound : (deps.entries.find? fun p =>
      p.1.label == e.label && p.1.kind == .toolchain g.1).isSome = true := by
    refine List.find?_isSome.mpr ⟨entry, hentry, ?_⟩
    rw [hdlabel, hdkind, hkind]
    simp
  obtain ⟨p, hp⟩ := Option.isSome_iff_exists.mp hfound
  have hmem := List.mem_of_find?_eq_some hp
  have hown := List.find?_some hp
  simp only [Bool.and_eq_true, beq_iff_eq] at hown
  obtain ⟨hplabel, hpkind⟩ := hown
  obtain ⟨e', he', _, _, hd'⟩ := hexpanded.exists_edge (List.mem_map_of_mem hmem)
  have hkind' : e'.kind = .toolchain g.1 := by
    rw [← hpkind, hd']
    rfl
  have hnone : p.1.aspects = [] := by
    rw [hd']
    exact (hedges.own he' hkind').1
  exact ⟨p.2, by rw [LoadedToolchains.dependencyOn?, hp]; rfl, p.1, hmem, hpkind, hplabel,
    (hsupplied p hmem).analyzed hnone⟩

/-- Let an engine begin with nothing and go through any history, and let the evaluation of a target
get in it to where its toolchains are loaded. Then they are loaded: for the groups that toolchains
were resolved for, in their order and with their platforms, and for each type that was resolved in a
group there is the analyzed value of a dependency of the group on the resolved implementation. -/
theorem resolved_toolchains_load {start : AnalysisSession} (empty : start.store = {})
    {history : List (Engine.Call analysisSpace)}
    (proper : ∀ call ∈ history, call.Proper (AnalysisKey.computation services))
    {nest : Engine.Nest analysisSpace} {s : AnalysisSession}
    (hs : s.store = (start.after history).store) {deps : DependencyBundle}
    (hrun : ((k.arrive.runFrom f).run.run nest { session := s }).1 = .ok (.ok (some (x, deps)), f'))
    {cs : List (String × ToolchainContext)}
    (hcs : x.contexts.bind ToolchainContexts.contexts = some cs) :
    ∃ loaded, LoadedToolchains.ofContexts deps cs = .ok loaded ∧
      List.Forall₂ (LoadedToolchains.GroupLoaded s.store deps) cs loaded := by
  have hst := consistent_after empty proper hs
  obtain ⟨ks, es, hyields⟩ := Engine.Demand.yields_of_run (k.arrive_has f) hrun
  have h : Staged.Yields s.store f k.arrive (.ok (some (x, deps))) f' ks := ⟨es, hyields⟩
  obtain ⟨f₁, ⟨_, hprepare⟩, ⟨_, hfan⟩, hnone⟩ := yields_arrive_ok h
  have hresolved : x.source.resolvedToolchains = cs := by
    change (x.contexts.bind ToolchainContexts.contexts).getD [] = cs
    rw [hcs, Option.getD_some]
  have hclear : ∀ c, c ∉ f₁.causes := fun c hc => by
    have hlast := x.source.fanOut_keeps x.dependencies f₁ _ f' _ hfan c hc
    rw [Causes.isEmpty_eq_false hlast] at hnone
    cases hnone
  obtain ⟨hedges, parts, hexpanded⟩ := yields_prepare_expanded hst hprepare hclear
  obtain ⟨hentries, hsupplied⟩ := EdgeSource.yields_fanOut_supplied hfan
  rw [← hentries] at hexpanded
  refine LoadedToolchains.ofContexts_of_serves fun g hg e he => ?_
  exact serves_of_expanded hedges hexpanded hsupplied (hresolved ▸ hg) (List.mem_map_of_mem he)

end TargetKey
end BuildAnalysis

/-! A target with two groups, which share an implementation. One implementation serves two types;
another is an alias, and one is a file. -/

namespace BuildAnalysis.ToolchainLoadingSample

open BuiltinRules.AliasSample (aliasLabel loading loading_proper optLabel start)
open FragmentsSample (armLabel fast gccLabel goLabel libraries nodup_constraints plain typeLabel)
open ExpansionSample (data dataLabel)

def linkerLabel : Label := ⟨typeLabel.package, ⟨"linker_type", rfl, by decide⟩⟩

def settingLabel : Label := ⟨typeLabel.package, ⟨"setting_type", rfl, by decide⟩⟩

def fileLabel : Label := ⟨typeLabel.package, ⟨"file_type", rfl, by decide⟩⟩

def registry : ToolchainRegistry :=
  { executionPlatforms := [⟨armLabel, ∅⟩]
    toolchains := [⟨typeLabel, gccLabel, ∅, ∅⟩, ⟨linkerLabel, gccLabel, ∅, ∅⟩,
      ⟨settingLabel, aliasLabel, ∅, ∅⟩, ⟨fileLabel, dataLabel, ∅, ∅⟩] }

/-- Needs all types, and one of them once more in a group of its own. -/
def program : Target :=
  { label := goLabel
    kind := .rule { BuiltinRules.AliasSample.rule "plain" [] nodup_constraints with
      toolchainTypes := .ofList [typeLabel, linkerLabel, settingLabel, fileLabel]
      usesToolchainResolution := true
      execGroups := [("link", { toolchainTypes := .ofList [linkerLabel] })] }
    values := [] }

def programs : Package where
  label := goLabel.package
  targets := [program, data]
  owned := by decide
  distinct := by decide

def services : Services :=
  { implementations := BuiltinRules.implementations.addRule "plain" plain }

def compute : Engine.Computation analysisSpace := AnalysisKey.computation (some services)

def key : TargetKey := ⟨goLabel, some fast.key, none⟩

def history : List (Engine.Call analysisSpace) :=
  [loading [BuiltinRules.AliasSample.package, libraries, programs],
    .commit [.inject (S := analysisSpace) .registry registry],
    .compute compute {} true (.target key)]

def session : AnalysisSession := Engine.Session.after start history

def arrived : Except Engine.Suspension
    (Except Abort (Option (TargetKey.Fan × DependencyBundle)) × Findings) :=
  ((key.arrive.runFrom {}).run.run (Engine.nestWithin compute {}) { session := session }).1

theorem compute_interrupts : Engine.Computation.Interrupts compute compute := by
  have hservices : AnalysisKey.ServicesLawful (some services) := by
    intro s hs
    obtain rfl := Option.some.inj hs
    exact Implementations.lawful_iff.mpr
      (BuiltinRules.implementations_have.addRule fun _ => .pure _)
  exact .refl (AnalysisKey.computation_lawful hservices)

theorem history_proper : ∀ call ∈ history, call.Proper compute := by
  intro call hcall
  simp only [history, List.mem_cons, List.not_mem_nil, or_false] at hcall
  rcases hcall with rfl | rfl | rfl
  · exact loading_proper _
  · exact List.forall_mem_singleton.mpr rfl
  · exact compute_interrupts

/-- The implementation of each type, by group. -/
def implementations : List (String × List (Label × Label)) :=
  [(ExecGroup.defaultName, [(fileLabel, dataLabel), (linkerLabel, gccLabel),
    (settingLabel, aliasLabel), (typeLabel, gccLabel)]), ("link", [(linkerLabel, gccLabel)])]

theorem arrived_eq_ok : ∃ x deps f cs, arrived = .ok (.ok (some (x, deps)), f) ∧
    x.contexts.bind ToolchainContexts.contexts = some cs ∧
    cs.map (fun g => (g.1, g.2.implementations.entries)) = implementations := by
  have hmap : (Staged.ended? arrived).bind (fun p => p.1.bind fun q =>
      (q.1.contexts.bind ToolchainContexts.contexts).map fun cs =>
        cs.map fun g => (g.1, g.2.implementations.entries)) = some implementations := by
    decide +kernel
  obtain ⟨⟨p, f⟩, hrun, hp⟩ := Option.bind_eq_some_iff.mp hmap
  obtain ⟨⟨x, deps⟩, rfl, hcontexts⟩ := Option.bind_eq_some_iff.mp hp
  obtain ⟨cs, hcs, hentries⟩ := Option.map_eq_some_iff.mp hcontexts
  exact ⟨x, deps, f, cs, Staged.ended?_eq_some hrun, hcs, hentries⟩

theorem resolved_toolchains_load_program : ∃ x deps f cs,
    arrived = .ok (.ok (some (x, deps)), f) ∧
    x.contexts.bind ToolchainContexts.contexts = some cs ∧
    cs.map (fun g => (g.1, g.2.implementations.entries)) = implementations ∧
    ∃ loaded, LoadedToolchains.ofContexts deps cs = .ok loaded ∧
      List.Forall₂ (LoadedToolchains.GroupLoaded session.store deps) cs loaded := by
  obtain ⟨x, deps, f, cs, hrun, hcs, hentries⟩ := arrived_eq_ok
  exact ⟨x, deps, f, cs, hrun, hcs, hentries,
    TargetKey.resolved_toolchains_load rfl history_proper rfl hrun hcs⟩

end BuildAnalysis.ToolchainLoadingSample
