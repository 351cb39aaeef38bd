import BuildAnalysis.Proofs.Analysis.Aspects
import BuildAnalysis.Proofs.Analysis.Stages

/-!
# What evaluations blame their failures on

An evaluation accounts for the causes that it collects: it reports an error with each, unless the
package of its target was loaded with errors. If it fails because of others that have reported
their failures themselves, then it has requested a key whose value is a failure.
-/
namespace BuildAnalysis

open Engine (Store)

def FailedAt (st : Store analysisSpace) (k : AnalysisKey) (e : Failure) : Prop :=
  ∃ v, st.value? k = some v ∧ k.failure? v = some e

def Findings.ShowsError (f : Findings) : Prop := ∃ e ∈ f.events, e.isError = true

/-- Causes were collected only if an error was reported or the package is broken. -/
def Findings.Accounted (broken : Prop) (f : Findings) : Prop :=
  f.causes.isEmpty = false → f.ShowsError ∨ broken

/-- What a failure that is not reported again is blamed on: the keys known to be requested, or
what was found. -/
def Abort.Blamed (st : Store analysisSpace) (broken : Prop) (known : List AnalysisKey)
    (f : Findings) : Abort → Prop
  | .dependency _ reported => reported = true → ∃ k ∈ known, ∃ e, FailedAt st k e
  | .aspect _ => ∃ k ∈ known, ∃ e, FailedAt st k e
  | .collected e => e.reported = false ∧ (f.ShowsError ∨ broken)
  | .creation _ => True
  | .toolchains _ => True

namespace Evaluation

variable {α β : Type} {st : Store analysisSpace} {broken : Prop} {known : List AnalysisKey}

/-- How an evaluation ends: it has accounted for its causes, or it blames its failure. -/
def EndsBlamed (st : Store analysisSpace) (broken : Prop) (known : List AnalysisKey)
    (f : Findings) : Except Abort α → Prop
  | .ok _ => f.Accounted broken
  | .error x => x.Blamed st broken known f

/-- After the known keys were requested, the evaluation accounts for its causes and blames its
failures. -/
def Blames (st : Store analysisSpace) (broken : Prop) (known : List AnalysisKey)
    (e : Evaluation α) : Prop :=
  ∀ f r f' ks, f.Accounted broken → Staged.Yields st f e r f' ks →
    EndsBlamed st broken (known ++ ks) f' r

theorem Blames.error {e : Evaluation α} (h : Blames st broken [] e) {f f' : Findings}
    (hf : f.Accounted broken) {x : Abort} {ks : List AnalysisKey}
    (hyields : Staged.Yields st f e (.error x) f' ks) : x.Blamed st broken ks f' :=
  h f _ f' ks hf hyields

theorem Blames.pure (a : α) : Blames st broken known (pure a) := by
  intro f r f' ks hf h
  obtain ⟨rfl, rfl, _⟩ := h.of_pure
  exact hf

/-- What follows a part may rely on what that part yields, and on the keys that it requests. -/
theorem Blames.bind_of_yields {e : Evaluation α} {g : α → Evaluation β}
    (he : Blames st broken known e)
    (hg : ∀ f a f' ks, Staged.Yields st f e (.ok a) f' ks →
      Blames st broken (known ++ ks) (g a)) :
    Blames st broken known (e >>= g) := by
  intro f r f' ks hf h
  rcases h.of_bind with ⟨a, f₁, ks₁, ks₂, ha, hb, rfl⟩ | ⟨x, hx, rfl⟩
  · have hnext := hg f a f₁ ks₁ ha f₁ r f' ks₂ (he f _ f₁ ks₁ hf ha) hb
    rwa [List.append_assoc] at hnext
  · exact he f _ f' ks hf hx

theorem Blames.bind {e : Evaluation α} {g : α → Evaluation β} (he : Blames st broken known e)
    (hg : ∀ a (ks : List AnalysisKey), Blames st broken (known ++ ks) (g a)) :
    Blames st broken known (e >>= g) :=
  he.bind_of_yields fun _ a _ ks _ => hg a ks

theorem Blames.request (d : Demand α) : Blames st broken known (request d) := by
  intro f r f' ks hf h
  obtain ⟨a, es, _, rfl, rfl⟩ := Staged.Yields.of_request h
  exact hf

theorem Blames.request_bind {d : Demand α} {g : α → Evaluation β}
    (hg : ∀ a (ks : List AnalysisKey) es, Engine.Demand.Yields st d a ks es →
      Blames st broken (known ++ ks) (g a)) :
    Blames st broken known (Evaluation.request d >>= g) := by
  refine .bind_of_yields (.request d) fun f a f' ks hd => ?_
  obtain ⟨_, es, hd, ha, _⟩ := Staged.Yields.of_request hd
  obtain rfl := Except.ok.inj ha
  exact hg a ks es hd

theorem Blames.findings : Blames st broken known findings := by
  intro f r f' ks hf h
  obtain ⟨rfl, rfl, _⟩ := Staged.Yields.of_get h
  exact hf

theorem Blames.note {g : Findings → Findings} (hg : ∀ f, f.Accounted broken →
    (g f).Accounted broken) : Blames st broken known (note g) := by
  intro f r f' ks hf h
  obtain ⟨rfl, rfl, _⟩ := Staged.Yields.of_modify h
  exact hg f hf

/-- A failure that needs no findings to be blamed. -/
theorem Blames.abort {x : Abort} (h : ∀ ks f, x.Blamed st broken (known ++ ks) f) :
    Blames st broken known (abort x : Evaluation α) := by
  intro f r f' ks hf hyields
  obtain ⟨rfl, rfl, _⟩ := Staged.Yields.of_throw hyields
  exact h ks _

theorem Blames.ite {p : Prop} [Decidable p] {e g : Evaluation α}
    (he : Blames st broken known e) (hg : Blames st broken known g) :
    Blames st broken known (if p then e else g) := by
  split
  · exact he
  · exact hg

theorem Blames.ofExcept {x : Except Abort α}
    (h : ∀ a, x = .error a → ∀ ks f, a.Blamed st broken ks f) :
    Blames st broken known (ofExcept x) := by
  cases x with
  | ok a => exact .pure a
  | error a => exact .abort fun ks f => h a rfl _ f

end Evaluation

open Evaluation (Blames)

variable {st : Store analysisSpace} {broken : Prop} {known : List AnalysisKey}

/-- Noting something that is neither a cause nor an event. -/
theorem Findings.Accounted.of_eq {f g : Findings} (h : f.Accounted broken)
    (hcauses : g.causes = f.causes) (hevents : g.events = f.events) : g.Accounted broken := by
  intro hg
  rw [hcauses] at hg
  rw [ShowsError, hevents]
  exact h hg

theorem Findings.Accounted.of_append {f g : Findings} (h : f.Accounted broken)
    (hcauses : g.causes = f.causes) {es : List Event} (hevents : g.events = f.events ++ es) :
    g.Accounted broken := by
  intro hg
  rw [hcauses] at hg
  refine (h hg).imp_left fun ⟨e, he, herror⟩ => ⟨e, ?_, herror⟩
  rw [hevents]
  exact List.mem_append_left _ he

theorem Findings.Accounted.of_isEmpty {f : Findings} (h : f.causes.isEmpty = true) :
    f.Accounted broken := fun hne => by
  rw [h] at hne
  cases hne

theorem Findings.Accounted.of_showsError {f : Findings} (h : f.ShowsError) :
    f.Accounted broken := fun _ => .inl h

namespace Batch

variable {α : Type}

theorem failures_ne_nil_of_raise? {owner : Label} {configuration : Option ConfigurationKey}
    {causes : Causes} {rs : List (Resolved α)} {x : Abort}
    (h : raise? owner configuration causes rs = some x) :
    Resolved.failures rs ≠ [] ∧ ∃ e, x = .dependency e (Resolved.allReported rs) := by
  obtain ⟨e, he, rfl⟩ := Option.map_eq_some_iff.mp h
  refine ⟨fun hnil => ?_, _, rfl⟩
  rw [hnil] at he
  cases he

theorem exists_failed_of_allReported {rs : List (Resolved α)}
    (hall : Resolved.allReported rs = true) (hne : Resolved.failures rs ≠ []) :
    ∃ e, Resolved.failed e true ∈ rs := by
  obtain ⟨e, he⟩ := List.exists_mem_of_ne_nil _ hne
  obtain ⟨r, hr, he⟩ := List.mem_filterMap.mp he
  cases r with
  | found a => cases he
  | failed e' reported =>
      have hreported : reported = true := List.all_eq_true.mp hall _ hr
      exact ⟨e', hreported ▸ hr⟩

/-- A batch blames its failures if those that were reported belong to known keys. -/
theorem settle_blames {owner : Label} {configuration : Option ConfigurationKey}
    {rs : List (Resolved α)}
    (h : ∀ e, Resolved.failed e true ∈ rs → ∃ k ∈ known, ∃ e, FailedAt st k e) :
    Blames st broken known (settle owner configuration rs) := by
  intro f r f' ks hf hyields
  have hlast := (Staged.Yields.of_modify_bind hyields).of_get_bind
  split at hlast
  next x hraise =>
    obtain ⟨rfl, rfl, _⟩ := Staged.Yields.of_throw hlast
    obtain ⟨hne, e, rfl⟩ := failures_ne_nil_of_raise? hraise
    intro hall
    obtain ⟨e', he'⟩ := exists_failed_of_allReported hall hne
    obtain ⟨k, hk, hfailed⟩ := h e' he'
    exact ⟨k, List.mem_append_left _ hk, hfailed⟩
  next hraise =>
    obtain ⟨rfl, rfl, _⟩ := Staged.Yields.of_pure hlast
    refine hf.of_eq ?_ rfl
    simp only [causes, failures_of_raise?_eq_none hraise, List.foldl_nil]

theorem notePackages_causes (values : List (Except Failure TargetValue)) (f : Findings) :
    (notePackages values f).causes = f.causes ∧ (notePackages values f).events = f.events := by
  unfold notePackages
  induction values generalizing f with
  | nil => exact ⟨rfl, rfl⟩
  | cons v values ih =>
      cases v with
      | error e => exact ih f
      | ok v => exact ih (f.addPackages v.packages)

/-- A batch blames its failures on the dependencies whose values are failures. -/
theorem resolve_blames (owner : Label) (configuration : Option ConfigurationKey)
    (deps : List Dependency) : Blames st broken known (resolve owner configuration deps) := by
  unfold resolve
  split
  · exact .pure _
  refine .request_bind fun p ks es hrequest => ?_
  obtain ⟨values, packages⟩ := p
  obtain ⟨rfl, hvalues, _⟩ := Engine.Demand.Yields.of_values₂ hrequest
  refine .bind (.note fun f hf => hf.of_eq (notePackages_causes values f).1
    (notePackages_causes values f).2) fun _ _ => ?_
  refine .bind (settle_blames fun e he => ?_) fun partials _ => .bind ?_ fun p _ => ?_
  · obtain ⟨⟨d, v, loaded⟩, hmem, hlook⟩ := List.mem_map.mp he
    rcases firstLook_eq_failed hlook with ⟨x, rfl, _⟩ | ⟨_, _, _, _, _, hunreported⟩
    · have hv := (List.of_mem_zip (List.of_mem_zip hmem).2).1
      obtain ⟨k, hk, v, hkv, rfl⟩ := Engine.exists_of_mem_right hvalues hv
      refine ⟨.target k, ?_, x, _, hkv, rfl⟩
      exact List.mem_append_left _ (List.mem_append_right _
        (List.mem_append_left _ (List.mem_map_of_mem hk)))
    · cases hunreported
  · unfold requestMissing
    exact .ite (.pure _) (.request _)
  · refine settle_blames fun e he => ?_
    obtain ⟨_, _, hlook⟩ := List.mem_map.mp he
    cases (secondLook_eq_failed hlook).2.1

end Batch

namespace Conditions

theorem relabel_blamed {owner : Label} {x : Abort} {f : Findings}
    (h : x.Blamed st broken known f) : (relabel owner x).Blamed st broken known f := by
  cases x <;> exact h

theorem ofAnalyzed_eq_error {owner : Label} {configuration : ConfigurationKey}
    {analyzed : List (Label × AnalyzedTarget)} {x : Abort}
    (h : ofAnalyzed owner configuration analyzed = .error x) :
    ∃ message, x = .dependency
      (.ofTarget owner (some configuration) .configCondition message) false := by
  induction analyzed with
  | nil => cases h
  | cons a analyzed ih =>
      obtain ⟨key, t⟩ := a
      simp only [ofAnalyzed] at h
      split at h
      next =>
        obtain rfl := Except.error.inj h
        exact ⟨_, rfl⟩
      next =>
        split at h
        next hrest =>
          obtain rfl := Except.error.inj h
          exact ih hrest
        next => cases h

theorem ofTarget_blames (t : Target) (configuration : Option Configuration) :
    Blames st broken known (ofTarget t configuration) := by
  unfold ofTarget
  split
  · refine .bind (fun f r f' ks hf h => ?_) fun values _ => .bind ?_ fun _ _ => .pure _
    · rcases h.of_tryCatch with ⟨a, ha, rfl⟩ | ⟨x, f₁, ks₁, ks₂, hx, hthrow, rfl⟩
      · exact Batch.resolve_blames _ _ _ f _ f' ks hf ha
      · obtain ⟨rfl, rfl, rfl⟩ := Staged.Yields.of_throw hthrow
        rw [List.append_nil]
        exact relabel_blamed (Batch.resolve_blames _ _ _ f _ _ _ hf hx)
    · refine .ofExcept fun x hx ks f => ?_
      obtain ⟨_, rfl⟩ := ofAnalyzed_eq_error hx
      exact fun h => by cases h
  · exact .pure _

end Conditions

namespace EdgeSource

variable (s : EdgeSource)

theorem attributeEdges_eq_error {s : EdgeSource} {a : AttrDecl} {e : AttrExpr}
    {kind : DependencyKind} {aspects : List Aspect} {x : Abort}
    (h : s.attributeEdges a e kind aspects = .error x) :
    ∃ tag message, x = .creation (s.failure tag message) := by
  unfold attributeEdges at h
  split at h
  next => cases h
  next =>
    split at h
    next y hlabels =>
      obtain rfl := Except.error.inj h
      unfold labels at hlabels
      split at hlabels
      next => cases hlabels
      next => exact ⟨_, _, (Except.error.inj hlabels).symm⟩
    next => cases h
    next =>
      split at h
      next y htransition =>
        obtain rfl := Except.error.inj h
        unfold transition at htransition
        split at htransition
        next => cases htransition
        next => cases htransition
        next => cases htransition
        next =>
          dsimp only at htransition
          split at htransition
          next => exact ⟨_, _, (Except.error.inj htransition).symm⟩
          next =>
            split at htransition
            next => cases htransition
            next => cases htransition
      next => cases h

theorem edges_eq_error {s : EdgeSource} {x : Abort} (h : s.edges = .error x) :
    ∃ tag message, x = .creation (s.failure tag message) := by
  unfold edges at h
  cases hall : s.allAttributeEdges with
  | ok es =>
      rw [hall] at h
      cases h
  | error y =>
      rw [hall] at h
      obtain rfl := Except.error.inj h
      unfold allAttributeEdges at hall
      dsimp only at hall
      split at hall
      all_goals
        cases hparts : sequence _ with
        | ok parts =>
            rw [hparts] at hall
            cases hall
        | error z =>
            rw [hparts] at hall
            obtain rfl := Except.error.inj hall
            obtain ⟨_, _, hpart⟩ := List.mem_map.mp (mem_of_sequence_eq_error hparts)
            exact attributeEdges_eq_error hpart

theorem configurationsOf_eq_error {s : EdgeSource} {parent : Configuration}
    {fragments : List (Label × Except Failure (SortedSet String))} {e : Edge} {t : Target}
    {x : Abort} (h : s.configurationsOf parent fragments e t = .error x) :
    ∃ tag message, x = .creation (s.failure tag message) := by
  unfold configurationsOf at h
  split at h
  next => cases h
  next =>
    dsimp only at h
    split at h
    next => exact ⟨_, _, (Except.error.inj h).symm⟩
    next => cases h
    next => cases h
    next => cases h

theorem noteLookup_accounted {loaded : List (PackagePath × Except Failure Package)}
    {f : Findings} {e : Edge × Except Failure Target} (h : f.Accounted broken) :
    (s.noteLookup loaded f e).Accounted broken := by
  unfold noteLookup
  cases e.2 with
  | ok t =>
      dsimp only
      split
      · exact h.of_eq rfl rfl
      · exact h
  | error failure =>
      exact .of_showsError ⟨.error s.target.label failure.message,
        List.mem_append_right _ (List.mem_singleton_self _), rfl⟩

theorem loadTargets_blames (es : List Edge) : Blames st broken known (s.loadTargets es) := by
  unfold loadTargets
  refine .bind (.request _) fun loaded _ => ?_
  refine .bind (.note fun f hf => ?_) fun _ _ => .pure _
  have hfold : ∀ (looked : List (Edge × Except Failure Target)) (f : Findings),
      f.Accounted broken → (looked.foldl (s.noteLookup loaded) f).Accounted broken := by
    intro looked
    induction looked with
    | nil => exact fun f hf => hf
    | cons e looked ih => exact fun f hf => ih _ (s.noteLookup_accounted hf)
  exact hfold _ f hf

theorem dependencies_blames (nodes : List (Edge × Target)) :
    Blames st broken known (s.dependencies nodes) := by
  unfold dependencies
  split
  · exact .pure _
  · refine .bind (.request _) fun fragments _ => .bind (.ofExcept fun x hx ks f => ?_)
      fun _ _ => .bind (.request _) fun _ _ => .pure _
    obtain ⟨n, _, hn⟩ := List.mem_map.mp (mem_of_sequence_eq_error hx)
    obtain ⟨_, _, rfl⟩ := configurationsOf_eq_error hn
    trivial

theorem applyAspects_blames (deps : List Dependency) (values : List AnalyzedTarget) :
    Blames st broken known (s.applyAspects deps values) := by
  intro f r f' ks hf h
  rcases yields_applyAspects h with
    ⟨_, rfl, rfl, _⟩ | ⟨_, rfl, hfirst, hrequested⟩ | ⟨_, _, rfl, _⟩
  · exact hf
  · obtain ⟨before, a, after, e, hkeys, _, he, _⟩ := hfirst
    have ha := hrequested a (by simp [hkeys])
    exact ⟨_, List.mem_append_right _ ha, e, _, he, rfl⟩
  · exact fun h => by cases h

theorem bundle_blames : Blames st broken known s.bundle := by
  unfold bundle
  refine .bind (.ofExcept fun x hx ks f => ?_) fun es _ => .bind (s.loadTargets_blames es)
    fun nodes _ => .bind (s.dependencies_blames nodes) fun deps _ =>
      .bind (Batch.resolve_blames _ _ _) fun values _ =>
        .bind (s.applyAspects_blames deps values) fun _ _ => .pure _
  obtain ⟨_, _, rfl⟩ := edges_eq_error hx
  trivial

end EdgeSource

/-- An evaluation that gives up if causes were collected, and otherwise goes on. -/
theorem Evaluation.Blames.collected {α : Type} {failure : Causes → TargetFailure}
    (h : ∀ cs, (failure cs).reported = false) (a : α) :
    Blames st broken known (do
      if !(← Evaluation.findings).causes.isEmpty then
        Evaluation.abort (.collected (failure (← Evaluation.findings).causes))
      return a : Evaluation α) := by
  intro f r f' ks hf hyields
  have hrest := Staged.Yields.of_get_bind hyields
  split at hrest
  next hcauses =>
    obtain ⟨rfl, rfl⟩ := (Staged.Yields.of_get_bind hrest).of_throw_bind
    exact ⟨h _, hf (by simpa using hcauses)⟩
  next =>
    obtain ⟨rfl, rfl, _⟩ := Staged.Yields.of_pure hrest
    exact hf

def BrokenAt (st : Store analysisSpace) (label : Label) : Prop :=
  ∃ p, st.value? (.package label.package) = some (.ok p) ∧ p.containsErrors = true

theorem ToolchainContexts.collect_eq_error
    {rs : List (String × Except Failure ToolchainContext)} {x : Abort}
    (h : collect rs = .error x) : ∃ e, x = .toolchains e := by
  induction rs with
  | nil => cases h
  | cons p rs ih =>
      obtain ⟨name, r⟩ := p
      simp only [collect] at h
      split at h
      next => exact ⟨_, (Except.error.inj h).symm⟩
      next =>
        split at h
        next hrest =>
          obtain rfl := Except.error.inj h
          exact ih hrest
        next => cases h

namespace TargetKey

variable (k : TargetKey)

theorem loadedFrom_eq_error {k : TargetKey} {packages : List (PackagePath × Except Failure Package)}
    {configurations : List (ConfigurationKey × Configuration)} {x : Abort}
    (h : k.loadedFrom packages configurations = .error x) :
    ∃ tag message, x = .creation (k.failure tag message) := by
  unfold loadedFrom at h
  split at h
  next => exact ⟨_, _, (Except.error.inj h).symm⟩
  next =>
    split at h
    next => exact ⟨_, _, (Except.error.inj h).symm⟩
    next => cases h

theorem load_blames : Blames st (BrokenAt st k.label) known k.load := by
  unfold load
  refine .request_bind fun p ks es hrequest => ?_
  obtain ⟨packages, configurations⟩ := p
  obtain ⟨_, hpackages, _⟩ := Engine.Demand.Yields.of_values₂ hrequest
  refine .bind_of_yields (.ofExcept fun x hx ks f => ?_) fun _ loaded _ _ hloaded => ?_
  · obtain ⟨_, _, rfl⟩ := loadedFrom_eq_error hx
    trivial
  refine .bind (.note fun f hf => hf.of_eq rfl rfl) fun _ _ => ?_
  split
  next message hmessage =>
    refine .bind (.note fun f hf _ => .inr ?_) fun _ _ => .pure _
    have hfrom := (Staged.Yields.of_ofExcept hloaded).1
    obtain ⟨r, hr, hfind⟩ := hpackages.find? List.mem_cons_self
    unfold loadedFrom at hfrom
    rw [Package.among, hfind] at hfrom
    split at hfrom
    next => cases hfrom
    next q hq =>
      obtain rfl : r = .ok q := hq
      split at hfrom
      next => cases hfrom
      next =>
        obtain rfl := Except.ok.inj hfrom
        exact ⟨q, hr, by rw [Package.containsErrors, hmessage]; rfl⟩
  next => exact .pure _

theorem toolchains_blames (loaded : Loaded) : Blames st broken known (k.toolchains loaded) := by
  unfold toolchains
  split
  · refine .bind ?_ fun _ _ => .bind (.note fun f hf => hf.of_eq rfl rfl)
      fun _ _ => .pure _
    unfold ToolchainContexts.resolve
    refine .bind (.ofExcept fun x hx ks f => ?_) fun groups _ => .ite (.pure _)
      (.bind (.request _) fun _ _ => .bind (.ofExcept fun x hx ks f => ?_)
        fun _ _ => .pure _)
    · cases hgroups : ToolchainContexts.groupsOf loaded.target _ _ with
      | ok groups =>
          rw [hgroups] at hx
          cases hx
      | error e =>
          rw [hgroups] at hx
          obtain rfl := Except.error.inj hx
          trivial
    · obtain ⟨e, rfl⟩ := ToolchainContexts.collect_eq_error hx
      trivial
  · exact .pure _

theorem consult_blames (loaded : Loaded) : Blames st broken known (k.consult loaded) := by
  unfold consult
  refine .bind (Conditions.ofTarget_blames _ _) fun conditions _ =>
    .bind .findings fun f _ => .ite ?_ (.pure _)
  exact .bind .findings fun _ _ => .bind (.abort fun _ _ => trivial) fun _ _ => .pure _

theorem gather_blames (loaded : Loaded) (conditions : Conditions)
    (contexts : Option ToolchainContexts) :
    Blames st broken known (k.gather loaded conditions contexts) :=
  .bind (EdgeSource.bundle_blames _) fun deps _ => .collected (fun _ => rfl) deps

theorem runImplementation_blames (i : RuleImplementation) (c : RuleContext) :
    Blames st broken known (k.runImplementation i c) := by
  unfold runImplementation
  refine .bind (.request _) fun p _ => ?_
  obtain ⟨result, events⟩ := p
  have hkeep : ∀ (es : List Event) (f : Findings), f.Accounted broken →
      ({ f with events := f.events ++ es } : Findings).Accounted broken :=
    fun es f hf => hf.of_append rfl rfl
  cases result with
  | ok out =>
      exact .bind (.note (hkeep events)) fun _ _ => .ite (.pure _)
        (.abort fun _ _ => trivial)
  | error e =>
      dsimp only
      split
      · exact .bind (.note (hkeep _)) fun _ _ => .abort fun _ _ => trivial
      · exact .bind (.note (hkeep _)) fun _ _ => .abort fun _ _ => trivial

theorem build_blames (services : Services) (loaded : Loaded) (conditions : Conditions)
    (contexts : Option ToolchainContexts) (deps : DependencyBundle) :
    Blames st broken known (k.build services loaded conditions contexts deps) := by
  unfold build
  split
  · exact .pure _
  · split
    · exact .abort fun _ _ => trivial
    · refine .bind (.ofExcept fun x hx ks f => ?_) fun _ _ =>
        .bind (k.runImplementation_blames _ _) fun out _ => .ofExcept fun x hx ks f => ?_
      · split at hx
        next => cases hx
        next =>
          split at hx
          next => cases hx
          next =>
            obtain rfl := Except.error.inj hx
            trivial
      · unfold valueOf at hx
        split at hx
        next => cases hx
        next =>
          dsimp only at hx
          split at hx
          next => cases hx
          next =>
            obtain rfl := Except.error.inj hx
            trivial

theorem evaluate_blames (services : Services) :
    Blames st (BrokenAt st k.label) known (k.evaluate services) := by
  rw [evaluate_eq]
  refine .bind k.load_blames fun loaded _ => .ite ?_ ?_
  · exact .bind (.request _) fun _ _ => .pure _
  · exact .bind (k.toolchains_blames loaded) fun contexts _ =>
      .bind (k.consult_blames loaded) fun conditions _ =>
        .bind (k.gather_blames loaded conditions contexts) fun deps _ =>
          .bind (k.build_blames services loaded conditions contexts deps) fun _ _ =>
            .bind .findings fun _ _ => .pure _

end TargetKey

namespace AspectKey

variable (k : AspectKey)

theorem loadBase_blames : Blames st broken known k.loadBase := by
  unfold loadBase
  refine .request_bind fun value ks es hrequest => ?_
  obtain ⟨rfl, hvalue⟩ := Engine.Demand.Yields.of_value hrequest
  split
  next =>
    refine .abort fun ks f => ⟨.target k.base, ?_, _, _, hvalue, rfl⟩
    exact List.mem_append_left _ (List.mem_append_right _ (List.mem_singleton_self _))
  next =>
    refine .bind (.request _) fun p _ => ?_
    obtain ⟨packages, configurations⟩ := p
    refine .bind (.ofExcept fun x hx ks f => ?_) fun _ _ => .pure _
    obtain ⟨_, _, rfl⟩ := TargetKey.loadedFrom_eq_error hx
    trivial

theorem gather_blames (base : AnalyzedTarget) : Blames st broken known (k.gather base) :=
  .bind (EdgeSource.bundle_blames _) fun deps _ => .collected (fun _ => rfl) deps

theorem runImplementation_blames (i : AspectImplementation) (c : AspectContext) :
    Blames st broken known (k.runImplementation i c) := by
  unfold runImplementation
  refine .bind (.request _) fun p _ => ?_
  obtain ⟨result, reported⟩ := p
  refine .bind (.note fun f hf => hf.of_append rfl rfl) fun _ _ => ?_
  cases result with
  | ok providers => exact .ite (.pure _) (.abort fun _ _ => trivial)
  | error e => exact .abort fun _ _ => trivial

theorem evaluate_blames (services : Services) :
    Blames st broken known (k.evaluate services) := by
  rw [evaluate_eq]
  refine .bind k.loadBase_blames fun base _ => .bind (k.gather_blames base)
    fun deps _ => ?_
  unfold conclude
  split
  · exact .abort fun _ _ => trivial
  · exact .bind (k.runImplementation_blames _ _) fun _ _ => .pure _

end AspectKey
end BuildAnalysis
