import BuildAnalysis.Proofs.Analysis.Ranking
import BuildAnalysis.Proofs.Analysis.Reporting
import BuildAnalysis.Proofs.Engine.Scratch

/-!
# What failures are grounded in

The failure of a target is grounded in its causes: there are some, and the failure ranks as the most
important of them. What an evaluation makes up itself is its own cause, what it collects is raised
only if there is any, and what it hands up was grounded before. So every cached failure is grounded,
by induction on when it was cached.
-/
namespace BuildAnalysis

open Engine (Store)

theorem Event.isEmpty_errors_append_error (es : List Event) (label : Label) (message : String) :
    (errors (es ++ [.error label message])).isEmpty = false := by
  rw [errors, List.filter_append]
  simp [isError, error]

structure TargetFailure.Grounded (t : TargetFailure) : Prop where
  caused : t.causes.isEmpty = false
  ranked : t.Ranked

namespace TargetFailure

variable {label : Label} {configuration : Option ConfigurationKey} {message : String}

theorem grounded_ofCauses {cs : Causes} (h : cs.isEmpty = false) :
    (ofCauses label configuration message cs).Grounded := ⟨h, rfl⟩

theorem grounded_ofTarget {tag : Tag} : (ofTarget label configuration tag message).Grounded :=
  grounded_ofCauses (Causes.isEmpty_single _)

theorem Grounded.withMessage {t : TargetFailure} (h : t.Grounded) (message : String) :
    (t.withMessage message).Grounded := ⟨h.caused, h.ranked⟩

theorem Grounded.markReported {t : TargetFailure} (h : t.Grounded) : t.markReported.Grounded :=
  ⟨h.caused, h.ranked⟩

end TargetFailure

/-- If a failure comes from a target, it is grounded. -/
def Failure.Grounded (e : Failure) : Prop := ∀ t, e.targetFailure? = some t → t.Grounded

theorem Failure.Grounded.toTargetFailure {e : Failure} (h : e.Grounded) (label : Label)
    (configuration : Option ConfigurationKey) :
    (e.toTargetFailure label configuration).Grounded := by
  unfold Failure.toTargetFailure
  cases ht : e.targetFailure? with
  | none => exact TargetFailure.grounded_ofTarget
  | some t => exact h t ht

/-- The failures behind the end of an evaluation are grounded. -/
def Abort.Grounded : Abort → Prop
  | .dependency t _ | .creation t | .aspect t | .collected t => t.Grounded
  | .toolchains _ => True

/-- If the value of a key is a failure, it is grounded. -/
def GroundedAt (st : Store analysisSpace) (k : AnalysisKey) : Prop :=
  ∀ e, FailedAt st k e → e.Grounded

variable {services : Option Services} {st : Store analysisSpace}

namespace Evaluation

variable {α β : Type}

/-- If the requested keys that have failed rank as their causes do, so does a failed evaluation. -/
def Grounds (st : Store analysisSpace) (e : Evaluation α) : Prop :=
  ∀ f x f' ks, Staged.Yields st f e (.error x) f' ks → (∀ l ∈ ks, GroundedAt st l) → x.Grounded

theorem Grounds.pure (a : α) : Grounds st (pure a) := by
  intro f x f' ks h
  cases h.of_pure.1

theorem Grounds.bind {e : Evaluation α} {g : α → Evaluation β} (he : Grounds st e)
    (hg : ∀ a, Grounds st (g a)) : Grounds st (e >>= g) := by
  intro f x f' ks h hks
  rcases h.of_bind with ⟨a, f₁, ks₁, ks₂, _, hb, rfl⟩ | ⟨y, hy, hx⟩
  · exact hg a f₁ x f' ks₂ hb fun l hl => hks l (List.mem_append_right _ hl)
  · obtain rfl := Except.error.inj hx
    exact he f x f' ks hy hks

theorem Grounds.request (d : Demand α) : Grounds st (request d) := by
  intro f x f' ks h
  obtain ⟨_, _, _, hx, _⟩ := Staged.Yields.of_request h
  cases hx

/-- What follows a request may rely on how the requested keys rank. -/
theorem Grounds.request_bind {d : Demand α} {g : α → Evaluation β}
    (hg : ∀ a (ks : List AnalysisKey) es, Engine.Demand.Yields st d a ks es →
      (∀ l ∈ ks, GroundedAt st l) → Grounds st (g a)) :
    Grounds st (Evaluation.request d >>= g) := by
  intro f x f' ks h hks
  obtain ⟨a, es, ks₁, ks₂, hd, hrest, rfl⟩ := Staged.Yields.of_request_bind h
  exact hg a ks₁ es hd (fun l hl => hks l (List.mem_append_left _ hl)) f x f' ks₂ hrest
    fun l hl => hks l (List.mem_append_right _ hl)

theorem Grounds.findings : Grounds st findings := by
  intro f x f' ks h
  cases (Staged.Yields.of_get h).1

theorem Grounds.note (g : Findings → Findings) : Grounds st (note g) := by
  intro f x f' ks h
  cases (Staged.Yields.of_modify h).1

theorem Grounds.ofExcept {r : Except Abort α} (h : ∀ x, r = .error x → x.Grounded) :
    Grounds st (ofExcept r) := by
  intro f x f' ks hyields _
  exact h x (Staged.Yields.of_ofExcept hyields).1.symm

theorem Grounds.abort {x : Abort} (h : x.Grounded) : Grounds st (abort x : Evaluation α) :=
  .ofExcept (r := .error x) fun _ hx => Except.error.inj hx ▸ h

theorem Grounds.ite {p : Prop} [Decidable p] {e g : Evaluation α} (he : Grounds st e)
    (hg : Grounds st g) : Grounds st (if p then e else g) := by
  split
  · exact he
  · exact hg

/-- An evaluation that may give up with the causes it has collected, if there are any. -/
theorem Grounds.guarded (p : Findings → Bool) (raised : TargetFailure → Abort) {label : Label}
    {configuration : Option ConfigurationKey} {message : String}
    (hp : ∀ f, p f = true → f.causes.isEmpty = false)
    (hraised : ∀ t : TargetFailure, t.Grounded → (raised t).Grounded) (a : α) :
    Grounds st (do
      if p (← Evaluation.findings) then
        Evaluation.abort (raised (.ofCauses label configuration message
          (← Evaluation.findings).causes))
      return a : Evaluation α) := by
  intro f x f' ks h hks
  have hrest := Staged.Yields.of_get_bind h
  split at hrest
  next hf =>
    obtain ⟨hx, _⟩ := (Staged.Yields.of_get_bind hrest).of_throw_bind
    obtain rfl := Except.error.inj hx
    exact hraised _ (TargetFailure.grounded_ofCauses (hp f hf))
  next => cases (Staged.Yields.of_pure hrest).1

end Evaluation

open Evaluation (Grounds)

theorem Batch.resolve_grounds (hst : Consistent services st) (owner : Label)
    (configuration : Option ConfigurationKey) (deps : List Dependency) :
    Grounds st (resolve owner configuration deps) := by
  intro f x f' ks h hks
  obtain ⟨rs, hraise, hfailures, hcauses, hrequested⟩ := yields_resolve_error hst h
  have hgrounded : ∀ t ∈ Resolved.failures rs, t.Grounded := fun t ht => by
    obtain ⟨d, hd, e, he, rfl⟩ := (hfailures t).mp ht
    exact (hks _ (hrequested d hd) e ⟨_, he, rfl⟩).toTargetFailure _ _
  obtain ⟨t, ht⟩ := List.exists_mem_of_ne_nil _ (failures_ne_nil_of_raise? hraise).1
  obtain ⟨c, hc⟩ := Causes.exists_mem (hgrounded t ht).caused
  obtain ⟨_, rfl⟩ := raise?_eq_some (fun t ht => (hgrounded t ht).ranked) hcauses hraise
  exact TargetFailure.grounded_ofCauses (Causes.isEmpty_eq_false (hcauses t ht c hc))

theorem Conditions.ofTarget_grounds (hst : Consistent services st) (t : Target)
    (configuration : Option Configuration) : Grounds st (ofTarget t configuration) := by
  unfold ofTarget
  split
  · refine .bind (fun f x f' ks h hks => ?_) fun values => .bind (.ofExcept fun x hx => ?_)
      fun _ => .pure _
    · rcases h.of_tryCatch with ⟨_, _, hx⟩ | ⟨y, f₁, ks₁, ks₂, hy, hthrow, rfl⟩
      · cases hx
      · have hgrounded := Batch.resolve_grounds hst _ _ _ f y f₁ ks₁ hy
          fun l hl => hks l (List.mem_append_left _ hl)
        obtain rfl := Except.error.inj hthrow.of_throw.1
        cases y with
        | dependency t _ => exact TargetFailure.Grounded.withMessage hgrounded _
        | creation t => exact hgrounded
        | aspect t => exact hgrounded
        | collected t => exact hgrounded
        | toolchains e => trivial
    · obtain ⟨_, rfl⟩ := ofAnalyzed_eq_error hx
      exact TargetFailure.grounded_ofTarget
  · exact .pure _

namespace EdgeSource

variable (s : EdgeSource)

theorem dependencies_grounds (nodes : List (Edge × Target)) :
    Grounds st (s.dependencies nodes) := by
  unfold dependencies
  split
  · exact .pure _
  · refine .bind (.request _) fun _ => .bind (.ofExcept fun x hx => ?_) fun _ =>
      .bind (.request _) fun _ => .pure _
    obtain ⟨_, _, hn⟩ := List.mem_map.mp (mem_of_sequence_eq_error hx)
    obtain ⟨_, _, rfl⟩ := configurationsOf_eq_error hn
    exact TargetFailure.grounded_ofTarget

theorem applyAspects_grounds (deps : List Dependency) (values : List AnalyzedTarget) :
    Grounds st (s.applyAspects deps values) := by
  intro f x f' ks h hks
  rcases yields_applyAspects h with ⟨_, hx, _⟩ | ⟨t, hx, hfirst, hrequested⟩ | ⟨_, _, hx, _⟩
  · cases hx
  · obtain rfl := Except.error.inj hx
    obtain ⟨before, a, after, e, hkeys, _, he, rfl⟩ := hfirst
    have ha : AnalysisKey.aspect a ∈ ks := hrequested a (by simp [hkeys])
    exact (hks _ ha e ⟨_, he, rfl⟩).toTargetFailure _ _
  · obtain rfl := Except.error.inj hx
    exact TargetFailure.grounded_ofTarget

theorem bundle_grounds (hst : Consistent services st) : Grounds st s.bundle := by
  refine .bind (.ofExcept fun x hx => ?_) fun es => .bind ?_ fun _ =>
    .bind (s.dependencies_grounds _) fun _ => .bind (Batch.resolve_grounds hst _ _ _) fun _ =>
      .bind (s.applyAspects_grounds _ _) fun _ => .pure _
  · obtain ⟨_, _, rfl⟩ := edges_eq_error hx
    exact TargetFailure.grounded_ofTarget
  · exact .bind (.request _) fun _ => .bind (.note _) fun _ => .pure _

end EdgeSource

namespace TargetKey

variable (k : TargetKey)

theorem load_grounds : Grounds st k.load := by
  unfold load
  refine .bind (.request _) fun p => ?_
  obtain ⟨packages, configurations⟩ := p
  refine .bind (.ofExcept fun x hx => ?_) fun loaded => .bind (.note _) fun _ => ?_
  · obtain ⟨_, _, rfl⟩ := loadedFrom_eq_error hx
    exact TargetFailure.grounded_ofTarget
  · split
    · exact .bind (.note _) fun _ => .pure _
    · exact .pure _

theorem toolchains_grounds (loaded : Loaded) : Grounds st (k.toolchains loaded) := by
  unfold toolchains
  split
  · refine .bind ?_ fun _ => .bind (.note _) fun _ => .pure _
    unfold ToolchainContexts.resolve
    refine .bind (.ofExcept fun x hx => ?_) fun _ => .ite (.pure _)
      (.bind (.request _) fun _ => .bind (.ofExcept fun x hx => ?_) fun _ => .pure _)
    · cases hgroups : ToolchainContexts.groupsOf loaded.target _ _ with
      | ok groups =>
          rw [hgroups] at hx
          cases hx
      | error e =>
          rw [hgroups] at hx
          obtain rfl := Except.error.inj hx
          exact TargetFailure.grounded_ofTarget
    · obtain ⟨_, rfl⟩ := ToolchainContexts.collect_eq_error hx
      trivial
  · exact .pure _

theorem consult_grounds (hst : Consistent services st) (loaded : Loaded) :
    Grounds st (k.consult loaded) := by
  unfold consult
  refine .bind (Conditions.ofTarget_grounds hst _ _) fun conditions => ?_
  exact .guarded (fun f => !f.causes.isEmpty && !conditions.isEmpty) .creation
    (fun f hf => (by simpa using hf : f.causes.isEmpty = false ∧ _).1)
    (fun _ h => h) conditions

theorem gather_grounds (hst : Consistent services st) (loaded : Loaded) (conditions : Conditions)
    (contexts : Option ToolchainContexts) : Grounds st (k.gather loaded conditions contexts) := by
  unfold gather
  exact .bind (EdgeSource.bundle_grounds _ hst) fun deps =>
    .guarded (fun f => !f.causes.isEmpty) .collected (fun f hf => by simpa using hf)
      (fun _ h => h) deps

theorem grounded_causesOf {events : List Event} (h : (Event.errors events).isEmpty = false)
    (label : Label) (configuration : Option ConfigurationKey) (message : String) :
    (TargetFailure.ofCauses label configuration message (k.causesOf events)).Grounded :=
  TargetFailure.grounded_ofCauses (Causes.isEmpty_foldl_add _ h ∅)

theorem runImplementation_grounds (i : RuleImplementation) (c : RuleContext) :
    Grounds st (k.runImplementation i c) := by
  unfold runImplementation
  refine .bind (.request _) fun p => ?_
  obtain ⟨result, events⟩ := p
  cases result with
  | ok out =>
      refine .bind (.note _) fun _ => ?_
      split
      next => exact .pure _
      next h => exact .abort (k.grounded_causesOf (Bool.eq_false_iff.mpr h) _ _ _)
  | error e =>
      dsimp only
      split
      next f hf =>
        refine .bind (.note _) fun _ => .abort ?_
        unfold buildFailure at hf
        split at hf
        next =>
          obtain rfl := Sum.inl.inj hf
          exact TargetFailure.grounded_ofTarget
        next => cases hf
      next event hevent =>
        refine .bind (.note _) fun _ => .abort (k.grounded_causesOf ?_ _ _ _)
        unfold buildFailure at hevent
        split at hevent
        next => cases hevent
        next =>
          obtain rfl := Sum.inr.inj hevent
          exact Event.isEmpty_errors_append_error _ _ _

theorem build_grounds (services : Services) (loaded : Loaded) (conditions : Conditions)
    (contexts : Option ToolchainContexts) (deps : DependencyBundle) :
    Grounds st (k.build services loaded conditions contexts deps) := by
  unfold build
  split
  · exact .pure _
  · split
    · exact .abort TargetFailure.grounded_ofTarget
    · refine .bind (.ofExcept fun x hx => ?_) fun _ =>
        .bind (k.runImplementation_grounds _ _) fun out => .ofExcept fun x hx => ?_
      · split at hx
        next => cases hx
        next =>
          split at hx
          next => cases hx
          next =>
            obtain rfl := Except.error.inj hx
            exact TargetFailure.grounded_ofTarget
      · unfold valueOf at hx
        split at hx
        next => cases hx
        next =>
          dsimp only at hx
          split at hx
          next => cases hx
          next =>
            obtain rfl := Except.error.inj hx
            exact TargetFailure.grounded_ofTarget

theorem evaluate_grounds {installed : Option Services} (hst : Consistent installed st)
    (services : Services) : Grounds st (k.evaluate services) := by
  rw [evaluate_eq]
  exact .bind k.load_grounds fun loaded => .ite (.bind (.request _) fun _ => .pure _)
    (.bind (k.toolchains_grounds loaded) fun contexts => .bind (k.consult_grounds hst loaded)
      fun conditions => .bind (k.gather_grounds hst loaded conditions contexts) fun deps =>
        .bind (k.build_grounds services loaded conditions contexts deps) fun _ =>
          .bind .findings fun _ => .pure _)

/-- A failure of a dependency is completed to one that differs in its message only. -/
theorem reportFailure_dependency (f : Findings) (t : TargetFailure) (reported : Bool) :
    ∃ message, (k.reportFailure f (.dependency t reported)).2 =
      (t.withMessage message).markReported := by
  cases reported with
  | true =>
      simp only [reportFailure, ite_true]
      split
      · exact ⟨_, rfl⟩
      · exact ⟨t.message, rfl⟩
  | false =>
      simp only [reportFailure, Bool.false_eq_true, ite_false]
      split
      · exact ⟨_, rfl⟩
      · exact ⟨t.message, rfl⟩

theorem reportFailure_grounded {f : Findings} {x : Abort} (h : x.Grounded) :
    (k.reportFailure f x).2.Grounded := by
  cases x with
  | dependency t reported =>
      obtain ⟨message, hcompleted⟩ := k.reportFailure_dependency f t reported
      rw [hcompleted]
      exact (TargetFailure.Grounded.withMessage h message).markReported
  | toolchains e => exact TargetFailure.grounded_ofTarget.markReported
  | creation t => exact TargetFailure.Grounded.markReported h
  | aspect t => exact TargetFailure.Grounded.markReported h
  | collected t => exact h

end TargetKey

namespace AspectKey

variable (k : AspectKey)

theorem loadBase_grounds : Grounds st k.loadBase := by
  unfold loadBase
  refine .request_bind fun value ks es hrequest hks => ?_
  obtain ⟨rfl, hvalue⟩ := Engine.Demand.Yields.of_value hrequest
  split
  next e =>
    exact .abort ((hks _ List.mem_cons_self e ⟨_, hvalue, rfl⟩).toTargetFailure _ _)
  next =>
    refine .bind (.request _) fun p => ?_
    obtain ⟨packages, configurations⟩ := p
    refine .bind (.ofExcept fun x hx => ?_) fun _ => .pure _
    obtain ⟨_, _, rfl⟩ := TargetKey.loadedFrom_eq_error hx
    exact TargetFailure.grounded_ofTarget

theorem gather_grounds (hst : Consistent services st) (base : AnalyzedTarget) :
    Grounds st (k.gather base) := by
  unfold gather
  exact .bind (EdgeSource.bundle_grounds _ hst) fun deps =>
    .guarded (fun f => !f.causes.isEmpty) .collected (fun f hf => by simpa using hf)
      (fun _ h => h) deps

theorem runImplementation_grounds (i : AspectImplementation) (c : AspectContext) :
    Grounds st (k.runImplementation i c) := by
  unfold runImplementation
  refine .bind (.request _) fun p => ?_
  obtain ⟨result, reported⟩ := p
  refine .bind (.note _) fun _ => ?_
  cases result with
  | ok providers =>
      dsimp only
      split
      next => exact .pure _
      next h =>
        exact .abort (TargetFailure.grounded_ofCauses
          (Causes.isEmpty_foldl_add _ (Bool.eq_false_iff.mpr h) ∅))
  | error e =>
      exact .abort (TargetFailure.grounded_ofCauses
        (Causes.isEmpty_foldl_add _ (Event.isEmpty_errors_append_error _ _ _) ∅))

theorem conclude_grounds (services : Services) (base : AnalyzedTarget) (deps : DependencyBundle) :
    Grounds st (k.conclude services base deps) := by
  unfold conclude
  split
  · exact .abort TargetFailure.grounded_ofTarget
  · exact .bind (k.runImplementation_grounds _ _) fun _ => .pure _

theorem evaluate_grounds {installed : Option Services} (hst : Consistent installed st)
    (services : Services) : Grounds st (k.evaluate services) := by
  rw [evaluate_eq]
  exact .bind k.loadBase_grounds fun base => .bind (k.gather_grounds hst base) fun deps =>
    k.conclude_grounds services base deps

theorem reportFailure_grounded {f : Findings} {x : Abort} (h : x.Grounded) :
    (k.reportFailure f x).2.Grounded := by
  cases x with
  | toolchains e => exact TargetFailure.grounded_ofTarget.markReported
  | dependency t reported => exact TargetFailure.Grounded.markReported h
  | creation t => exact TargetFailure.Grounded.markReported h
  | aspect t => exact TargetFailure.Grounded.markReported h
  | collected t => exact h

end AspectKey

/-- The failure is that of missing services or a grounded one of a target. -/
def Failure.Explained (services : Option Services) (e : Failure) : Prop :=
  (services = none ∧ e = Services.missing) ∨
    ∃ t : TargetFailure, t.Grounded ∧ e = .ofTargetFailure t

theorem Failure.Explained.grounded {e : Failure} (h : e.Explained services) : e.Grounded := by
  intro t ht
  rcases h with ⟨_, rfl⟩ | ⟨t', ht', rfl⟩
  · cases ht
  · obtain rfl := Option.some.inj ht
    exact ht'

/-- Every cached failure is explained. -/
theorem FailedAt.explained (hst : Consistent services st) {k : AnalysisKey} {e : Failure}
    (h : FailedAt st k e) : e.Explained services := by
  -- What the evaluation of a key has requested was cached before the key itself.
  induction hn : st.rank k using Nat.strongRecOn generalizing k e with
  | ind n ih =>
    obtain ⟨v, hv, hfailure⟩ := h
    have hbelow : ∀ {deps ks : List AnalysisKey},
        (⟨k, v, deps⟩ : Engine.Entry analysisSpace) ∈ st.entries → (∀ l, l ∈ deps ↔ l ∈ ks) →
          ∀ l ∈ ks, GroundedAt st l := fun hmem hdeps l hl e he => by
      have hlt := hst.rank_lt hmem ((hdeps l).mpr hl)
      exact (ih _ (hn ▸ hlt) he rfl).grounded
    cases k with
    | target k =>
        obtain ⟨deps, ks, es, hmem, hdeps, heval⟩ := AnalysisKey.evaluates_of_value? hst rfl hv
        rcases AnalysisKey.evaluates_target heval with
          ⟨hnone, rfl⟩ | ⟨s, _, found, _, hyields, ⟨_, _, rfl, _⟩ | ⟨x, rfl, rfl, _⟩⟩
        · exact .inl ⟨hnone, (Option.some.inj hfailure).symm⟩
        · cases hfailure
        · have hx := k.evaluate_grounds hst s _ x found ks hyields (hbelow hmem hdeps)
          exact .inr ⟨_, k.reportFailure_grounded hx, (Option.some.inj hfailure).symm⟩
    | aspect k =>
        obtain ⟨deps, ks, es, hmem, hdeps, heval⟩ := AnalysisKey.evaluates_of_value? hst rfl hv
        rcases AnalysisKey.evaluates_aspect heval with
          ⟨hnone, rfl⟩ | ⟨s, _, found, _, hyields, ⟨_, _, rfl, _⟩ | ⟨x, rfl, rfl, _⟩⟩
        · exact .inl ⟨hnone, (Option.some.inj hfailure).symm⟩
        · cases hfailure
        · have hx := k.evaluate_grounds hst s _ x found ks hyields (hbelow hmem hdeps)
          exact .inr ⟨_, k.reportFailure_grounded hx, (Option.some.inj hfailure).symm⟩
    | _ => cases hfailure

/-- Every cached failure of a target ranks as the most important of its causes. -/
theorem rankedAt (hst : Consistent services st) (k : AnalysisKey) : RankedAt st k :=
  fun _ he t ht => ((he.explained hst).grounded t ht).ranked

theorem bestTag_ofTargetFailure (t : TargetFailure) : (Failure.ofTargetFailure t).bestTag = t.tag :=
  rfl

/-- The tag of a grounded failure is that of one of its causes, and none of them is more
important. -/
theorem TargetFailure.Grounded.exists_tag {t : TargetFailure} (h : t.Grounded) :
    ∃ c ∈ t.causes, t.detailedTag = some c.tag ∧ ∀ d ∈ t.causes, c.tag.rank ≤ d.tag.rank := by
  cases ht : t.causes.mostImportant with
  | none =>
      have hempty := Causes.mostImportant_eq_none_iff.mp ht
      rw [h.caused] at hempty
      cases hempty
  | some best =>
      obtain ⟨⟨c, hc, rfl⟩, hleast⟩ := Causes.mostImportant_eq_some_iff.mp ht
      exact ⟨c, hc, h.ranked.trans ht, hleast⟩

/-- Let an engine with services begin with nothing and go through any history. A cached failure of a
target or of an aspect is the failure of a target. It has causes, each once, and its tag is that of
the most important among them, by which the cached failure ranks too. -/
theorem failure_grounded {services : Services} {start : AnalysisSession} (empty : start.store = {})
    {history : List (Engine.Call analysisSpace)}
    (proper : ∀ call ∈ history, call.Proper (AnalysisKey.computation (some services)))
    {s : AnalysisSession} (hs : s = start.after history) {k : AnalysisKey} {e : Failure}
    (failed : FailedAt s.store k e) :
    ∃ t c, e = .ofTargetFailure t ∧ t.causes.items ≠ [] ∧ t.causes.items.Nodup ∧
      t.detailedTag = some c ∧ c ∈ t.causes.items.map Cause.tag ∧
      (∀ d ∈ t.causes.items, c.rank ≤ d.tag.rank) ∧ e.bestTag = c := by
  have hst := consistent_after empty proper (congrArg _ hs)
  obtain ⟨t, hgrounded, rfl⟩ := (failed.explained hst).resolve_left (by simp)
  obtain ⟨c, hc, htag, hleast⟩ := hgrounded.exists_tag
  have hbest : (Failure.ofTargetFailure t).bestTag = c.tag := by
    rw [bestTag_ofTargetFailure, TargetFailure.tag, htag]
    rfl
  exact ⟨t, c.tag, rfl, List.ne_nil_of_mem hc, t.causes.nodup, htag, List.mem_map_of_mem hc,
    hleast, hbest⟩

end BuildAnalysis

/-! A target in a broken package that depends on one that is missing. -/

namespace BuildAnalysis.GroundingSample

open BuiltinRules.AliasSample

def lostLabel : Label := ⟨optLabel.package, ⟨"lost", rfl, by decide⟩⟩

def top : Target := { TrimmingSample.top with values := [("deps", .labelList [lostLabel])] }

def topPackage : Package where
  label := binLabel.package
  targets := [top]
  owned := by decide
  distinct := by decide
  errorMessage := some "syntax error"

def key : AnalysisKey := .target ⟨binLabel, some optimized.key, none⟩

def history : List (Engine.Call analysisSpace) :=
  [loading [package, topPackage], .compute compute {} true key]

def session : AnalysisSession := Engine.Session.after start history

theorem history_proper : ∀ call ∈ history, call.Proper compute :=
  List.forall_mem_cons.mpr ⟨loading_proper _, List.forall_mem_singleton.mpr compute_interrupts⟩

theorem failed_key : ∃ t, TargetFailedAt session.store key t ∧
    t.causes.items.map Cause.tag = [.packageLoading, .targetNotFound] := by
  have hfailure : (targetFailure? session.store key).map (fun t => t.causes.items.map Cause.tag) =
      some [.packageLoading, .targetNotFound] := by
    decide +kernel
  obtain ⟨t, ht, htags⟩ := Option.map_eq_some_iff.mp hfailure
  exact ⟨t, targetFailedAt_of_eq ht, htags⟩

theorem failure_grounded_key : ∃ e t c, FailedAt session.store key e ∧ e = .ofTargetFailure t ∧
    t.causes.items ≠ [] ∧ t.causes.items.Nodup ∧ t.detailedTag = some c ∧
      c ∈ t.causes.items.map Cause.tag ∧ (∀ d ∈ t.causes.items, c.rank ≤ d.tag.rank) ∧
      e.bestTag = c := by
  obtain ⟨_, ⟨e, he, _⟩, _⟩ := failed_key
  have hsession : session = Engine.Session.after start history := rfl
  obtain ⟨t, c, hgrounded⟩ := failure_grounded rfl history_proper hsession he
  exact ⟨e, t, c, he, hgrounded⟩

end BuildAnalysis.GroundingSample
