import BuildAnalysis.Proofs.Analysis.Blame
import BuildAnalysis.Proofs.Failure.Causes

/-!
# The causes that an evaluation collects

Whatever is a cause at some moment of an evaluation is one at its end, however it ends. A package
that was loaded with errors, a target that cannot be loaded, a dependency or an aspect whose value
is a failure: each adds causes when it is met.
-/
namespace BuildAnalysis

open Engine (Store)

namespace Evaluation

variable {α β : Type} {st : Store analysisSpace}

/-- Whatever was a cause stays one. -/
def Keeps (st : Store analysisSpace) (e : Evaluation α) : Prop :=
  ∀ f r f' ks, Staged.Yields st f e r f' ks → ∀ c ∈ f.causes, c ∈ f'.causes

theorem Keeps.pure (a : α) : Keeps st (pure a) := by
  intro f r f' ks h
  obtain ⟨_, rfl, _⟩ := h.of_pure
  exact fun _ hc => hc

theorem Keeps.bind {e : Evaluation α} {g : α → Evaluation β} (he : Keeps st e)
    (hg : ∀ a, Keeps st (g a)) : Keeps st (e >>= g) := by
  intro f r f' ks h c hc
  rcases h.of_bind with ⟨a, f₁, ks₁, ks₂, ha, hb, _⟩ | ⟨x, hx, _⟩
  · exact hg a f₁ r f' ks₂ hb c (he f _ f₁ ks₁ ha c hc)
  · exact he f _ f' ks hx c hc

theorem Keeps.request (d : Demand α) : Keeps st (request d) := by
  intro f r f' ks h
  obtain ⟨_, _, _, _, rfl⟩ := Staged.Yields.of_request h
  exact fun _ hc => hc

theorem Keeps.findings : Keeps st findings := by
  intro f r f' ks h
  obtain ⟨_, rfl, _⟩ := Staged.Yields.of_get h
  exact fun _ hc => hc

theorem Keeps.note {g : Findings → Findings} (hg : ∀ f, ∀ c ∈ f.causes, c ∈ (g f).causes) :
    Keeps st (note g) := by
  intro f r f' ks h
  obtain ⟨_, rfl, _⟩ := Staged.Yields.of_modify h
  exact hg f

theorem Keeps.ofExcept (x : Except Abort α) : Keeps st (ofExcept x) := by
  intro f r f' ks h
  obtain ⟨_, rfl, _⟩ := Staged.Yields.of_ofExcept h
  exact fun _ hc => hc

theorem Keeps.abort (x : Abort) : Keeps st (abort x : Evaluation α) := .ofExcept (.error x)

theorem Keeps.ite {p : Prop} [Decidable p] {e g : Evaluation α} (he : Keeps st e)
    (hg : Keeps st g) : Keeps st (if p then e else g) := by
  split
  · exact he
  · exact hg

theorem Keeps.tryCatch {e : Evaluation α} {g : Abort → Evaluation α} (he : Keeps st e)
    (hg : ∀ x, Keeps st (g x)) : Keeps st (tryCatch e g) := by
  intro f r f' ks h c hc
  rcases h.of_tryCatch with ⟨a, ha, _⟩ | ⟨x, f₁, ks₁, ks₂, hx, hcatch, _⟩
  · exact he f _ f' ks ha c hc
  · exact hg x f₁ r f' ks₂ hcatch c (he f _ f₁ ks₁ hx c hc)

end Evaluation

open Evaluation (Keeps)

variable {st : Store analysisSpace} {f f' : Findings} {ks : List AnalysisKey}

namespace Batch

variable {α : Type} {owner : Label} {configuration : Option ConfigurationKey}

theorem mem_causes {known : Causes} {rs : List (Resolved α)} {c : Cause} :
    c ∈ causes known rs ↔ c ∈ known ∨ ∃ e ∈ Resolved.failures rs, c ∈ e.causes :=
  Causes.mem_foldl_addAll

theorem settle_keeps (owner : Label) (configuration : Option ConfigurationKey)
    (rs : List (Resolved α)) : Keeps st (settle owner configuration rs) := by
  unfold settle
  refine .bind (.note fun f c hc => mem_causes.mpr (.inl hc)) fun _ => .bind .findings fun f => ?_
  split
  · exact .abort _
  · exact .pure _

theorem resolve_keeps (owner : Label) (configuration : Option ConfigurationKey)
    (deps : List Dependency) : Keeps st (resolve owner configuration deps) := by
  unfold resolve
  split
  · exact .pure _
  refine .bind (.request _) fun p => ?_
  obtain ⟨values, packages⟩ := p
  refine .bind (.note fun f c hc => ?_) fun _ => .bind (settle_keeps _ _ _) fun partials => ?_
  · rw [(notePackages_causes values f).1]
    exact hc
  refine .bind ?_ fun p => settle_keeps _ _ _
  unfold requestMissing
  exact .ite (.pure _) (.request _)

end Batch

theorem Conditions.ofTarget_keeps (t : Target) (configuration : Option Configuration) :
    Keeps st (ofTarget t configuration) := by
  unfold ofTarget
  split
  · exact .bind (.tryCatch (Batch.resolve_keeps _ _ _) fun x => .abort _) fun values =>
      .bind (.ofExcept _) fun _ => .pure _
  · exact .pure _

namespace EdgeSource

variable (s : EdgeSource)

theorem mem_noteLookup {loaded : List (PackagePath × Except Failure Package)}
    {e : Edge × Except Failure Target} {c : Cause} :
    c ∈ (s.noteLookup loaded f e).causes ↔ c ∈ f.causes ∨
      ∃ x, e.2 = .error x ∧ c = ⟨e.1.label, none, x.bestTag, x.message⟩ := by
  unfold noteLookup
  cases he : e.2 with
  | ok t =>
      dsimp only
      split <;> simp [Findings.addPackage]
  | error x =>
      dsimp only
      split <;> simp [Findings.addCause, Findings.report, Findings.addPackage]

theorem mem_foldl_noteLookup {loaded : List (PackagePath × Except Failure Package)}
    {looked : List (Edge × Except Failure Target)} {c : Cause} :
    c ∈ (looked.foldl (s.noteLookup loaded) f).causes ↔ c ∈ f.causes ∨
      ∃ e ∈ looked, ∃ x, e.2 = .error x ∧ c = ⟨e.1.label, none, x.bestTag, x.message⟩ := by
  induction looked generalizing f with
  | nil => simp
  | cons e looked ih => simp only [List.foldl_cons, ih, mem_noteLookup, List.exists_mem_cons_iff,
      or_assoc]

theorem loadTargets_keeps (es : List Edge) : Keeps st (s.loadTargets es) := by
  unfold loadTargets
  exact .bind (.request _) fun loaded =>
    .bind (.note fun f c hc => s.mem_foldl_noteLookup.mpr (.inl hc)) fun _ => .pure _

theorem dependencies_keeps (nodes : List (Edge × Target)) : Keeps st (s.dependencies nodes) := by
  unfold dependencies
  split
  · exact .pure _
  · exact .bind (.request _) fun _ => .bind (.ofExcept _) fun _ => .bind (.request _) fun _ =>
      .pure _

theorem applyAspects_keeps (deps : List Dependency) (values : List AnalyzedTarget) :
    Keeps st (s.applyAspects deps values) := by
  unfold applyAspects
  dsimp only
  split
  · exact .pure _
  refine .bind (.request _) fun results => .bind (.note fun f c hc => ?_) fun _ =>
    .bind (.ofExcept _) fun _ => ?_
  · exact Causes.mem_foldl_addAll.mpr (.inl hc)
  · split
    · exact .abort _
    · exact .pure _

theorem fanOut_keeps (deps : List Dependency) : Keeps st (s.fanOut deps) := by
  unfold fanOut
  exact .bind (Batch.resolve_keeps _ _ _) fun _ => .bind (s.applyAspects_keeps _ _) fun _ => .pure _

end EdgeSource

namespace TargetKey

variable (k : TargetKey)

theorem toolchains_keeps (loaded : Loaded) : Keeps st (k.toolchains loaded) := by
  unfold toolchains
  split
  · refine .bind ?_ fun _ => .bind (.note fun f c hc => hc) fun _ => .pure _
    unfold ToolchainContexts.resolve
    exact .bind (.ofExcept _) fun _ => .ite (.pure _)
      (.bind (.request _) fun _ => .bind (.ofExcept _) fun _ => .pure _)
  · exact .pure _

theorem consult_keeps (loaded : Loaded) : Keeps st (k.consult loaded) := by
  unfold consult
  refine .bind (Conditions.ofTarget_keeps _ _) fun conditions => .bind .findings fun f =>
    .ite ?_ (.pure _)
  exact .bind .findings fun _ => .bind (.abort _) fun _ => .pure _

theorem fanOut_keeps (x : Fan) : Keeps st (k.fanOut x) := by
  unfold fanOut
  refine .bind (x.source.fanOut_keeps _) fun deps => .bind .findings fun f => .ite ?_ (.pure _)
  exact .bind .findings fun _ => .bind (.abort _) fun _ => .pure _

end TargetKey
end BuildAnalysis
