import BuildAnalysis.Proofs.Analysis.Toolchains
import BuildAnalysis.Proofs.Engine.Avoidance

/-!
# Rules that do without toolchains

The evaluation of a target whose rule opts out of toolchain resolution requests neither the registry
nor anything that is resolved with it, at no stage and however it is cut off. So it has no edges to
toolchains, its value has none, and it is the same with every registry.
-/
namespace BuildAnalysis

open Engine (Store)
open Engine.Task (Avoids)

/-- The keys of toolchain resolution: the registry and what is resolved with it. -/
def AnalysisKey.IsToolchain : AnalysisKey → Prop
  | .registry | .toolchains _ => True
  | _ => False

/-- On a store a demand requests no key of toolchain resolution. -/
def AvoidsToolchains (confined : Prop) (st : Store analysisSpace) {α : Type} (d : Demand α) :
    Prop :=
  Avoids AnalysisKey.IsToolchain confined (fun _ => True) st d.run

/-- A rule does without toolchains: it opts out of their resolution, and its implementation requests
none itself. -/
structure Services.OptsOut (services : Services) (confined : Prop) (st : Store analysisSpace)
    (r : Rule) : Prop where
  rule : r.usesToolchainResolution = false
  implementation : ∀ i, services.implementations.rule? r.id = some i →
    ∀ c, Staged.Has (AvoidsToolchains confined st) (i c)

namespace Evaluation

variable {α β : Type} {st : Store analysisSpace} {confined : Prop}

inductive Ending (promised : α → Prop) :
    Except Engine.Suspension (Except Abort α × Findings) → Prop
  | suspended {e} : Ending promised (.error e)
  | failed {x f} (hf : f.toolchains = ∅) : Ending promised (.ok (.error x, f))
  | value {a f} (hf : f.toolchains = ∅) (h : promised a) : Ending promised (.ok (.ok a, f))

/-- On a store an evaluation that starts without toolchains requests no key of their resolution and
finds none. -/
def Spares (confined : Prop) (st : Store analysisSpace) (e : Evaluation α)
    (promised : α → Prop) : Prop :=
  ∀ f : Findings, f.toolchains = ∅ →
    Avoids AnalysisKey.IsToolchain confined (Ending promised) st (e.runFrom f).run

namespace Spares

variable {promised promised' : α → Prop} {kept : β → Prop} {e : Evaluation α}

theorem imp (h : Spares confined st e promised) (himp : ∀ a, promised a → promised' a) :
    Spares confined st e promised' := by
  refine fun f hf => (h f hf).imp fun r hr => ?_
  cases hr with
  | suspended => exact .suspended
  | failed hf => exact .failed hf
  | value hf ha => exact .value hf (himp _ ha)

theorem pure {a : α} (h : promised a) : Spares confined st (pure a) promised :=
  fun _ hf => .done (.value hf h)

theorem abort (x : Abort) : Spares confined st (abort x : Evaluation α) promised :=
  fun _ hf => .done (.failed hf)

theorem ofExcept (x : Except Abort α) : Spares confined st (ofExcept x) (x = .ok ·) := by
  cases x with
  | ok a => exact .pure rfl
  | error x => exact .abort x

theorem findings : Spares confined st findings fun f => f.toolchains = ∅ :=
  fun _ hf => .done (.value hf hf)

theorem note {g : Findings → Findings} (hg : ∀ f, f.toolchains = ∅ → (g f).toolchains = ∅) :
    Spares confined st (note g) fun _ => True :=
  fun f hf => .done (.value (hg f hf) trivial)

theorem abort_bind (x : Abort) (g : α → Evaluation β) :
    Spares confined st (Evaluation.abort x >>= g) kept := fun _ hf => .done (.failed hf)

/-- What follows an evaluation that leaves the store alone finds it as it was. -/
theorem bind {g : α → Evaluation β} (he : Spares True st e promised)
    (hg : ∀ a, promised a → Spares confined st (g a) kept) :
    Spares confined st (e >>= g) kept := by
  intro f hf
  refine Avoids.bind (he f hf) fun r hr => ?_
  cases hr with
  | suspended => exact .done .suspended
  | failed hf => exact .done (.failed hf)
  | value hf ha => exact hg _ ha _ hf

theorem andThen {g : α → Evaluation β} (he : Spares confined st e promised)
    (hg : ∀ st a, promised a → Spares confined st (g a) kept) :
    Spares confined st (e >>= g) kept := by
  intro f hf
  refine Avoids.andThen (he f hf) fun st r hr => ?_
  cases hr with
  | suspended => exact .done .suspended
  | failed hf => exact .done (.failed hf)
  | value hf ha => exact hg st _ ha _ hf

theorem tryCatch {g : Abort → Evaluation α} (he : Spares True st e promised)
    (hg : ∀ x, Spares confined st (g x) promised) :
    Spares confined st (tryCatch e g) promised := by
  intro f hf
  refine Avoids.bind (he f hf) fun r hr => ?_
  cases hr with
  | suspended => exact .done .suspended
  | failed hf => exact hg _ _ hf
  | value hf ha => exact .done (.value hf ha)

theorem ite {p : Prop} [Decidable p] {e g : Evaluation α} (he : Spares confined st e promised)
    (hg : Spares confined st g promised) : Spares confined st (if p then e else g) promised := by
  split
  · exact he
  · exact hg

theorem logged (entry : LogEntry) :
    Spares confined st (Evaluation.request (Engine.Demand.lift (.log entry (.done ()))))
      fun _ => True :=
  fun _ hf => .log (.done (.value hf trivial))

theorem demand {d : Demand α} (h : AvoidsToolchains confined st d) :
    Spares confined st (Evaluation.request d) fun _ => True := by
  intro f hf
  have hkept : Avoids AnalysisKey.IsToolchain confined
      (fun r => ∀ p, r = .ok p → p.2 = f) st (StateT.lift (m := Demand) d f).run := by
    refine Avoids.andThen h fun st r _ => ?_
    cases r with
    | ok a => exact .done fun p hp => (Except.ok.inj hp) ▸ rfl
    | error e => exact .done fun p hp => nomatch hp
  refine Avoids.andThen hkept fun st r hr => ?_
  cases r with
  | ok p => exact .done (.value (hr p rfl ▸ hf) trivial)
  | error e => exact .done .suspended

theorem request {keys : List AnalysisKey} {read : Engine.Values analysisSpace keys → α}
    (free : ∀ k ∈ keys, ¬ k.IsToolchain)
    (h : ∀ vs, st.values? keys = some vs → promised (read vs)) :
    Spares confined st (Evaluation.request
      (Engine.Task.request (S := analysisSpace) keys fun r => .done (r.map read))) promised := by
  refine fun f hf => .request free (fun vs hvs => .done (.value hf (h vs hvs))) fun e => ?_
  exact .done .suspended

section
variable {γ δ γ' δ' : Type} {key : γ → AnalysisKey} {read : (c : γ) → (key c).Value → δ}
  {cs : List γ} {key' : γ' → AnalysisKey} {read' : (c : γ') → (key' c).Value → δ'} {cs' : List γ'}

theorem values (free : ∀ c, ¬ (key c).IsToolchain) :
    Spares confined st (Evaluation.request (Engine.Demand.values (S := analysisSpace) key read cs))
      (st.Reads (S := analysisSpace) key read cs) := by
  refine request (fun k hk => ?_) fun _ hvs => Store.reads_toList hvs
  obtain ⟨c, _, rfl⟩ := List.mem_map.mp hk
  exact free c

theorem values₂ (free : ∀ c, ¬ (key c).IsToolchain) (free' : ∀ c, ¬ (key' c).IsToolchain) :
    Spares confined st
      (Evaluation.request (Engine.Demand.values₂ (S := analysisSpace) key read key' read' cs cs'))
      fun ds => st.Reads (S := analysisSpace) key read cs ds.1 := by
  refine request (fun k hk => ?_) fun _ hvs => Store.reads_toList (Store.values?_split hvs).1
  rcases List.mem_append.mp hk with hk | hk
  · obtain ⟨c, _, rfl⟩ := List.mem_map.mp hk
    exact free c
  · obtain ⟨c, _, rfl⟩ := List.mem_map.mp hk
    exact free' c

end

end Spares
end Evaluation

open Evaluation (Spares)

variable {st : Store analysisSpace} {confined : Prop}

namespace Batch

theorem notePackages_toolchains (values : List (Except Failure TargetValue)) (f : Findings) :
    (notePackages values f).toolchains = f.toolchains := by
  unfold notePackages
  induction values generalizing f with
  | nil => rfl
  | cons v values ih =>
      rw [List.foldl_cons, ih]
      cases v <;> rfl

theorem settle_spares {α : Type} (owner : Label) (configuration : Option ConfigurationKey)
    (rs : List (Resolved α)) :
    Spares confined st (settle owner configuration rs) fun _ => True := by
  unfold settle
  refine .bind (.note fun f hf => hf) fun _ _ => .bind .findings fun f _ => ?_
  split
  · exact .abort _
  · exact .pure trivial

theorem requestMissing_spares (ps : List PartialTarget) :
    Spares confined st (requestMissing ps) fun _ => True := by
  unfold requestMissing
  exact .ite (.pure trivial) ((Spares.values₂ (fun _ => id) fun _ => id).imp fun _ _ => trivial)

theorem resolve_spares (owner : Label) (configuration : Option ConfigurationKey)
    (deps : List Dependency) :
    Spares confined st (resolve owner configuration deps) fun _ => True := by
  unfold resolve
  refine .ite (.pure trivial) (.bind (.values₂ (fun _ => id) fun _ => id) fun p _ => ?_)
  obtain ⟨values, packages⟩ := p
  exact .bind (.note fun f hf => (notePackages_toolchains values f).trans hf) fun _ _ =>
    .bind (settle_spares _ _ _) fun _ _ => .bind (requestMissing_spares _) fun _ _ =>
      settle_spares _ _ _

end Batch

theorem Conditions.ofTarget_spares (t : Target) (c : Option Configuration) :
    Spares confined st (Conditions.ofTarget t c) fun _ => True := by
  unfold Conditions.ofTarget
  split
  · refine .bind (.tryCatch (Batch.resolve_spares _ _ _) fun _ => .abort _) fun values _ => ?_
    exact .bind (.ofExcept _) fun _ _ => .pure trivial
  · exact .pure trivial

namespace EdgeSource

variable (s : EdgeSource)

theorem noteLookup_toolchains {loaded : List (PackagePath × Except Failure Package)}
    (looked : List (Edge × Except Failure Target)) (f : Findings) :
    (looked.foldl (s.noteLookup loaded) f).toolchains = f.toolchains := by
  induction looked generalizing f with
  | nil => rfl
  | cons e looked ih =>
      rw [List.foldl_cons, ih]
      unfold noteLookup
      cases e.2 <;> dsimp only <;> split <;> rfl

theorem loadTargets_spares (es : List Edge) :
    Spares confined st (s.loadTargets es) fun nodes => ∀ n ∈ nodes, n.1 ∈ es := by
  refine .bind (.values fun _ => id) fun loaded _ =>
    .bind (.note fun f hf => (s.noteLookup_toolchains _ f).trans hf) fun _ _ => .pure ?_
  intro n hn
  exact (sublist_of_looked _).subset (List.mem_map_of_mem hn)

/-- Dependencies are of the kinds of the edges that they come from. -/
theorem dependencies_spares (nodes : List (Edge × Target)) :
    Spares confined st (s.dependencies nodes)
      fun ds => ∀ d ∈ ds, ∃ n ∈ nodes, d.kind = n.1.kind := by
  unfold dependencies
  split
  next =>
    refine .pure fun d hd => ?_
    obtain ⟨n, hn, rfl⟩ := List.mem_map.mp hd
    exact ⟨n, hn, rfl⟩
  next parent _ =>
    refine .bind (.values fun _ => id) fun fragments _ => .bind (.ofExcept _)
      fun expanded hexpanded => .bind (.values fun _ => id) fun configurations _ => .pure ?_
    intro d hd
    obtain ⟨x, hx, rfl⟩ := List.mem_map.mp (Listing.mem_distinct.mp hd)
    obtain ⟨out, hout, hx⟩ := List.mem_flatten.mp hx
    obtain ⟨n, hn, hconfigurations⟩ := List.mem_map.mp (mem_of_sequence_eq_ok hexpanded hout)
    exact ⟨n, hn, congrArg Edge.kind (mem_configurationsOf hconfigurations hx).1⟩

theorem applyAspects_spares (deps : List Dependency) (values : List AnalyzedTarget) :
    Spares confined st (s.applyAspects deps values) fun _ => True := by
  unfold applyAspects
  dsimp only
  refine .ite (.pure trivial) (.bind (.values fun _ => id) fun results _ =>
    .bind (.note fun f hf => hf) fun _ _ => .bind (.ofExcept _) fun merged _ => ?_)
  split
  · exact .abort _
  · exact .pure trivial

theorem fanOut_spares (deps : List Dependency) :
    Spares confined st (s.fanOut deps) fun _ => True :=
  .bind (Batch.resolve_spares _ _ _) fun _ _ => .bind (s.applyAspects_spares _ _) fun _ _ =>
    .pure trivial

end EdgeSource

namespace TargetKey

variable {services : Services} (k : TargetKey)

theorem load_spares : Spares confined st k.load fun loaded =>
    TargetAt st k.label loaded.target := by
  refine .bind (.values₂ (fun _ => id) fun _ => id) fun p hpackages => ?_
  obtain ⟨packages, configurations⟩ := p
  refine .bind (.ofExcept _) fun loaded hloaded => .bind (.note fun f hf => hf) fun _ _ => ?_
  have hat : TargetAt st k.label loaded.target := by
    have hlooked := lookedUp_among hpackages List.mem_cons_self
    unfold loadedFrom at hloaded
    split at hloaded
    next => cases hloaded
    next p hp =>
      rw [hp] at hlooked
      split at hloaded
      next => cases hloaded
      next t ht =>
        obtain rfl := Except.ok.inj hloaded
        rw [Package.lookup, ht] at hlooked
        exact lookedUp_ok.mp hlooked
  dsimp only
  split
  · exact .bind (.note fun f hf => hf) fun _ _ => .pure hat
  · exact .pure hat

/-- A target does without toolchains if its rule, if any, does. -/
def OptsOut (services : Services) (confined : Prop) (st : Store analysisSpace) (t : Target) :
    Prop := ∀ r, t.rule? = some r → services.OptsOut confined st r

/-- There are no contexts, though there may be execution groups. -/
def Contextless (contexts : Option ToolchainContexts) : Prop :=
  contexts.bind ToolchainContexts.contexts = none

theorem resolve_spares {t : Target} {r : Rule} (opts : r.usesToolchainResolution = false)
    (c : Configuration) (platform : Option Label) :
    Spares True st (ToolchainContexts.resolve t r c platform) fun contexts =>
      contexts.contexts = none := by
  unfold ToolchainContexts.resolve
  rw [opts]
  exact .bind (.ofExcept _) fun groups _ => .pure rfl

theorem toolchains_spares {loaded : Loaded}
    (opts : OptsOut services confined st loaded.target) :
    Spares True st (k.toolchains loaded) Contextless := by
  unfold toolchains
  split
  next c r _ hr =>
    refine .bind (resolve_spares (opts r hr).rule _ _) fun contexts hnone => ?_
    have hlabels : contexts.labels = ∅ := by rw [ToolchainContexts.labels, hnone]; rfl
    exact .bind (.note fun f _ => hlabels) fun _ _ => .pure hnone
  next => exact .pure rfl

theorem consult_spares (loaded : Loaded) :
    Spares confined st (k.consult loaded) fun _ => True := by
  unfold consult
  refine .bind (Conditions.ofTarget_spares _ _) fun conditions _ => .bind .findings fun f _ =>
    .ite ?_ (.pure trivial)
  exact .bind .findings fun _ _ => .abort_bind _ _

end TargetKey

structure TargetKey.Fan.WithoutToolchains (x : TargetKey.Fan) : Prop where
  contextless : TargetKey.Contextless x.contexts
  edges : ∀ e ∈ x.edges, ∀ group, e.kind ≠ .toolchain group
  dependencies : ∀ d ∈ x.dependencies, ∀ group, d.kind ≠ .toolchain group

namespace EdgeSource

variable {s : EdgeSource}

theorem kind_of_contextless (target : s.aspect = none)
    (contextless : TargetKey.Contextless s.toolchains) {es : List Edge} (h : s.edges = .ok es)
    {e : Edge} (he : e ∈ es) (group : String) : e.kind ≠ .toolchain group := by
  unfold edges at h
  rw [contextless] at h
  cases hattributes : s.allAttributeEdges with
  | error x =>
      rw [hattributes] at h
      cases h
  | ok own =>
      rw [hattributes] at h
      obtain rfl := Except.ok.inj h
      replace he : e ∈ own := by simpa using he
      obtain ⟨a, ha⟩ := mem_allAttributeEdges target hattributes he
      rw [ha.kind]
      exact DependencyKind.noConfusion

end EdgeSource

namespace TargetKey

variable {services : Services} (k : TargetKey)

theorem prepare_spares
    (opts : ∀ t, TargetAt st k.label t → OptsOut services confined st t) :
    Spares True st k.prepare fun fan => ∀ x, fan = some x →
      x.WithoutToolchains ∧ OptsOut services confined st x.loaded.target := by
  refine .bind k.load_spares fun loaded hloaded => ?_
  have hopts := opts _ hloaded
  refine .ite (.bind (.logged _) fun _ _ => .pure fun x hx => nomatch hx) ?_
  refine .bind (k.toolchains_spares hopts) fun contexts hcontexts =>
    .bind (k.consult_spares _) fun conditions _ => ?_
  refine .bind (.ofExcept _) fun es hes => .bind (EdgeSource.loadTargets_spares _ _)
    fun nodes hnodes => .bind (EdgeSource.dependencies_spares _ _) fun deps hdeps => .pure ?_
  rintro x ⟨⟩
  have hkinds : ∀ e ∈ es, ∀ group, e.kind ≠ .toolchain group := fun e he =>
    EdgeSource.kind_of_contextless rfl hcontexts hes he
  refine ⟨⟨hcontexts, hkinds, fun d hd => ?_⟩, hopts⟩
  obtain ⟨n, hn, hkind⟩ := hdeps d hd
  rw [hkind]
  exact hkinds n.1 (hnodes n hn)

theorem fanOut_spares (x : Fan) : Spares confined st (k.fanOut x) fun _ => True := by
  unfold fanOut
  refine .bind (x.source.fanOut_spares _) fun deps _ => .bind .findings fun f _ =>
    .ite ?_ (.pure trivial)
  exact .bind .findings fun _ _ => .abort_bind _ _

theorem runImplementation_spares {i : RuleImplementation} (c : RuleContext)
    (h : Staged.Has (AvoidsToolchains confined st) (i c)) :
    Spares confined st (k.runImplementation i c) fun _ => True := by
  unfold runImplementation
  refine .andThen (.demand (h [])) fun st r _ => ?_
  obtain ⟨result, events⟩ := r
  cases result with
  | ok output =>
      exact .bind (.note fun f hf => hf) fun _ _ => .ite (.pure trivial) (.abort _)
  | error e =>
      dsimp only
      split
      · exact .bind (.note fun f hf => hf) fun _ _ => .abort _
      · exact .bind (.note fun f hf => hf) fun _ _ => .abort _

theorem build_spares {loaded : Loaded} (opts : OptsOut services confined st loaded.target)
    (conditions : Conditions) (contexts : Option ToolchainContexts) (deps : DependencyBundle) :
    Spares confined st (k.build services loaded conditions contexts deps) fun _ => True := by
  unfold build
  split
  next => exact .pure trivial
  next rule hrule =>
    split
    next => exact .abort _
    next i hi =>
      have himplementation := (opts rule hrule).implementation i hi
      refine .bind (.ofExcept _) fun toolchains _ =>
        .andThen (k.runImplementation_spares _ (himplementation _)) fun st output _ => ?_
      exact (Spares.ofExcept _).imp fun _ _ => trivial

theorem conclude_spares {loaded : Loaded} (opts : OptsOut services confined st loaded.target)
    (conditions : Conditions) (contexts : Option ToolchainContexts) (deps : DependencyBundle) :
    Spares confined st (k.conclude services loaded conditions contexts deps)
      fun v => v.toolchains = ∅ :=
  .andThen (k.build_spares opts conditions contexts deps) fun _ _ _ =>
    .bind .findings fun _ hf => .pure hf

theorem evaluate_spares
    (opts : ∀ t, TargetAt st k.label t → OptsOut services confined st t) :
    Spares confined st (k.evaluate services) fun v => v.toolchains = ∅ := by
  rw [evaluate_eq_fanOut]
  refine .bind (k.prepare_spares opts) fun fan hfan => ?_
  cases fan with
  | none => exact .pure rfl
  | some x =>
      exact .bind (k.fanOut_spares x) fun deps _ =>
        k.conclude_spares (hfan x rfl).2 x.conditions x.contexts deps

end TargetKey

namespace AnalysisKey

variable {services : Services}

theorem deliver_avoids {α : Type} {barred : AnalysisKey → Prop}
    {promised : Except Engine.Suspension α → Prop} (f : Findings) {d : Demand α}
    (h : Avoids barred confined promised st d.run) :
    Avoids barred confined promised st (do Engine.Demand.lift (deliver f); d : Demand α).run := by
  unfold deliver
  induction f.events with
  | nil => exact h
  | cons e events ih => exact .perform ih

theorem inSection_avoids {α : Type} {barred : AnalysisKey → Prop}
    {promised : Except Engine.Suspension α → Prop} (unblock : Bool) {d : Demand α}
    (h : Avoids barred confined promised st d.run) :
    Avoids barred confined promised st (inSection unblock d) :=
  .perform (.observe fun _ => h.andThen fun _ _ ha => .observe fun _ => .perform (.done ha))

theorem computeTarget_avoids {k : TargetKey}
    (opts : ∀ t, TargetAt st k.label t → TargetKey.OptsOut services confined st t) :
    Avoids IsToolchain confined (fun r => ∀ v, r = .ok (.ok v) → v.toolchains = ∅) st
      (computeTarget (some services) k).run := by
  have hevaluate := k.evaluate_spares opts (initial services.settings) rfl
  refine Avoids.andThen (inSection_avoids _ hevaluate) fun st r hr => ?_
  cases hr with
  | suspended => exact .done fun v hv => nomatch hv
  | @failed x f _ =>
      exact deliver_avoids _ (.log (.done fun v hv => nomatch hv))
  | @value v f _ hv =>
      refine deliver_avoids f (.perform (.done ?_))
      rintro _ ⟨⟩
      exact hv

end AnalysisKey

namespace TargetKey

/-- Opting out of toolchain resolution is complete. Whatever the target of the key asks for, if its
rule does without toolchains then no run of its evaluation, cancelled on the way or not, fetches a
key of their resolution, no edge or dependency leads to a toolchain, and the value has none. A run
that leaves the store alone is the same on any other store that agrees on what else it fetches,
whatever the registries there have registered. -/
theorem opting_out_is_complete (services : Services) (confined : Prop) (k : TargetKey)
    (s : Engine.Session analysisSpace)
    (opts : ∀ t, TargetAt s.store k.label t → OptsOut services confined s.store t)
    (nest : Engine.Nest analysisSpace)
    {t : Engine.Task analysisSpace (Except Engine.Suspension (Except Failure TargetValue))}
    (ht : t.uninterrupted =
      Engine.Task.uninterrupted (AnalysisKey.computation (some services) (.target k))) :
    (∀ l ∈ (t.run nest { session := s }).2.deps, ¬ l.IsToolchain) ∧
    (∀ r : Engine.Running analysisSpace, r.session.store = s.store → ∀ x f r',
      (k.prepare.runFrom (AnalysisKey.initial services.settings)).run.run nest r =
        (.ok (.ok (some x), f), r') → x.WithoutToolchains) ∧
    (∀ v, (t.run nest { session := s }).1 = .ok (.ok v) → v.toolchains = ∅) ∧
    (confined → ∀ (nest' : Engine.Nest analysisSpace) (st : Store analysisSpace),
      (∀ l ∈ (t.run nest { session := s }).2.deps, ¬ l.IsToolchain →
        st.value? l = s.store.value? l) →
      (t.run nest' { session := { s with store := st } }).1 =
        (t.run nest { session := s }).1 ∧
      (t.run nest' { session := { s with store := st } }).2 =
        (t.run nest { session := s }).2.onStore st) := by
  have havoids : Avoids AnalysisKey.IsToolchain confined
      (fun r => ∀ v, r = .ok (.ok v) → v.toolchains = ∅) s.store t := by
    refine Engine.Task.avoids_uninterrupted.mp ?_
    rw [ht]
    exact Engine.Task.avoids_uninterrupted.mpr (AnalysisKey.computeTarget_avoids opts)
  obtain ⟨hdeps, hresult⟩ := havoids.run nest (r := { session := s }) rfl
  refine ⟨fun l hl => (hdeps l hl).resolve_left List.not_mem_nil, fun r hr x f r' hx => ?_,
    hresult, fun hconfined nest' st agrees => ?_⟩
  · have hprepare := k.prepare_spares opts (AnalysisKey.initial services.settings) rfl
    have hending := (hprepare.run nest hr).2
    rw [hx] at hending
    cases hending with
    | value _ h => exact (h x rfl).1
  · have hrun := havoids.run_onStore nest nest' hconfined (r := { session := s }) rfl agrees
    exact Prod.mk.inj hrun

end TargetKey
end BuildAnalysis

/-! A target that asks for a toolchain in a group, for the transition to its platform and for a
platform of its own, but whose rule opts out; with the registry of its workspace and without any
registered toolchain. -/

namespace BuildAnalysis.OptOutSample

open Engine (Store)
open BuiltinRules.AliasSample (loading loading_proper start)
open FragmentsSample (compute gccLabel goLabel libraries plain services typeLabel)
open TargetKey (OptsOut)
open ToolchainsSample (host registry riscvLabel)

def rule : Rule :=
  { BuiltinRules.AliasSample.rule "plain"
      [.ofDecl { AttrDecl.dep "tools" with transition := .execution (some "link") }] (by decide) with
    toolchainTypes := .ofList [typeLabel]
    execGroups := [("link", { toolchainTypes := .ofList [typeLabel], inherits := true })]
    usesToolchainTransition := true }

def program : Target :=
  { label := goLabel, kind := .rule rule, values := [("tools", .labelList [gccLabel])] }

def programs : Package where
  label := goLabel.package
  targets := [program]
  owned := by decide
  distinct := by decide

def key : TargetKey := ⟨goLabel, some host.key, some riscvLabel⟩

def history : List (Engine.Call analysisSpace) :=
  [loading [libraries, programs], .commit [.inject (S := analysisSpace) .registry registry],
    .compute compute {} true (.target key)]

def session : AnalysisSession := Engine.Session.after start history

def unregistered : Store analysisSpace := session.store.set (S := analysisSpace) .registry {}

def registered : Option ToolchainRegistry := session.store.value? AnalysisKey.registry

abbrev evaluating (st : Store analysisSpace) :
    Except Engine.Suspension (Except Failure TargetValue) × Engine.Running analysisSpace :=
  Engine.Task.run (Engine.nestWithin compute {})
    (AnalysisKey.computation (some services) (.target key)) { session := { session with store := st } }

abbrev preparing :
    Except Engine.Suspension (Except Abort (Option TargetKey.Fan) × Findings) ×
      Engine.Running analysisSpace :=
  (key.prepare.runFrom (AnalysisKey.initial services.settings)).run.run
    (Engine.nestWithin compute {}) { session := session }

theorem targetAt_program : TargetAt session.store goLabel program :=
  ⟨programs, success?_eq_some (by decide +kernel), rfl⟩

theorem optsOut_program : OptsOut services True session.store program := by
  rintro r ⟨⟩
  refine ⟨rfl, ?_⟩
  rintro i ⟨⟩ c f
  exact .done trivial

/-- The evaluation gets through, with a dependency for the group, and does so without a registry. -/
theorem opting_out_is_complete_program : ∃ (v : TargetValue) (x : TargetKey.Fan) (f : Findings)
      (r : Engine.Running analysisSpace),
    (evaluating session.store).1 = .ok (.ok v) ∧ v.toolchains = ∅ ∧
    (∀ l ∈ (evaluating session.store).2.deps, ¬ AnalysisKey.IsToolchain l) ∧
    preparing = (.ok (.ok (some x), f), r) ∧ x.edges.length = 1 ∧ x.WithoutToolchains ∧
    registered = some registry ∧ (evaluating unregistered).1 = .ok (.ok v) := by
  have hvalue : (success? (evaluating session.store).1.toOption).isSome = true := by
    decide +kernel
  have hregistry : registered = some registry := by decide +kernel
  have hfan : ((Staged.ended? preparing.1).bind Prod.fst).map (fun x => x.edges.length) =
      some 1 := by
    decide +kernel
  obtain ⟨v, hv⟩ := Option.isSome_iff_exists.mp hvalue
  have hrun : (evaluating session.store).1 = .ok (.ok v) := by
    have := success?_eq_some hv
    cases h : (evaluating session.store).1 with
    | error e => rw [h] at this; cases this
    | ok r => rw [h] at this; exact congrArg Except.ok (Option.some.inj this)
  obtain ⟨x, hx, hedges⟩ := Option.map_eq_some_iff.mp hfan
  obtain ⟨⟨_, f⟩, hended, rfl⟩ := Option.bind_eq_some_iff.mp hx
  have hprepare : preparing = (.ok (.ok (some x), f), preparing.2) :=
    Prod.ext (Staged.ended?_eq_some hended) rfl
  have hopts : ∀ t, TargetAt session.store key.label t →
      OptsOut services True session.store t := by
    intro t ht
    obtain rfl := ht.eq targetAt_program
    exact optsOut_program
  obtain ⟨hfree, hkinds, htoolchains, hsame⟩ := TargetKey.opting_out_is_complete services True key
    session hopts (Engine.nestWithin compute {})
    (t := AnalysisKey.computation (some services) (.target key)) rfl
  refine ⟨v, x, f, _, hrun, htoolchains v hrun, hfree, hprepare, hedges,
    hkinds _ rfl _ _ _ hprepare, hregistry, ?_⟩
  obtain ⟨hother, _⟩ := hsame trivial (Engine.nestWithin compute {}) unregistered fun l _ hl =>
    Engine.Store.value?_set_of_ne _ fun h => hl (h ▸ trivial)
  exact hother.trans hrun

end BuildAnalysis.OptOutSample
