import BuildAnalysis.Proofs.Analysis.Composition

/-!
# The computations of analysis are lawful

Every key of analysis is computed by a lawful task, provided that the registered implementations
are: they request values, report events, and stop at a request without values.
-/
namespace BuildAnalysis

open Engine.Demand (lawful_pure lawful_lift)
open Engine.Task (Quiet)

structure Implementations.Lawful (i : Implementations) : Prop where
  rules : ∀ id r, i.rule? id = some r → ∀ c, Staged.Lawful (r c)
  aspects : ∀ id a, i.aspect? id = some a → ∀ c, Staged.Lawful (a c)

theorem Implementations.lawful_iff {i : Implementations} :
    i.Lawful ↔ i.Have Engine.Demand.Lawful :=
  ⟨fun h => ⟨h.rules, h.aspects⟩, fun h => ⟨h.rules, h.aspects⟩⟩

theorem Conditions.ofTarget_lawful (t : Target) (c : Option Configuration) :
    Staged.Lawful (Conditions.ofTarget t c) := Conditions.ofTarget_has t c

theorem EdgeSource.dependencies_lawful (s : EdgeSource) (nodes : List (Edge × Target)) :
    Staged.Lawful (s.dependencies nodes) := s.dependencies_has nodes

namespace AnalysisKey

theorem performAll_quiet (es : List AnalysisEffect) : (performAll es).Quiet := by
  induction es with
  | nil => exact .done _
  | cons e es ih => exact .perform ih

theorem inSection_lawful {α : Type} (unblock : Bool) {d : Demand α}
    (h : Engine.Demand.Lawful d) : (inSection unblock d).Lawful :=
  .perform (.observe fun _ => Engine.Task.Lawful.bind h
    (fun _ => .observe fun _ => .perform (.done _)) fun _ => .observe fun _ => .perform .done)

/-- The implementations of the installed services are lawful. -/
def ServicesLawful (services : Option Services) : Prop :=
  ∀ s ∈ services, s.implementations.Lawful

theorem computeTarget_lawful {services : Option Services} (h : ServicesLawful services)
    (k : TargetKey) : Engine.Demand.Lawful (computeTarget services k) := by
  unfold computeTarget
  split
  · exact lawful_pure _
  next s =>
    refine .bind (inSection_lawful _ (k.evaluate_has (Implementations.lawful_iff.mp (h s rfl)) _))
      fun p => ?_
    obtain ⟨result, found⟩ := p
    cases result with
    | ok value =>
        exact .bind (lawful_lift (performAll_quiet _)) fun _ =>
          .bind (lawful_lift (.perform (.done _))) fun _ => lawful_pure _
    | error a =>
        exact .bind (lawful_lift (performAll_quiet _)) fun _ =>
          .bind (lawful_lift (.log (.done _))) fun _ => lawful_pure _

theorem computeAspect_lawful {services : Option Services} (h : ServicesLawful services)
    (k : AspectKey) : Engine.Demand.Lawful (computeAspect services k) := by
  unfold computeAspect
  split
  · exact lawful_pure _
  next s =>
    refine .bind (k.evaluate_has (Implementations.lawful_iff.mp (h s rfl)) _) fun p => ?_
    obtain ⟨result, found⟩ := p
    cases result with
    | ok value => exact .bind (lawful_lift (performAll_quiet _)) fun _ => lawful_pure _
    | error a => exact .bind (lawful_lift (performAll_quiet _)) fun _ => lawful_pure _

/-- Every key of analysis is computed by a lawful task. -/
theorem computation_lawful {services : Option Services} (h : ServicesLawful services)
    (k : AnalysisKey) : (computation services k).Lawful := by
  cases k with
  | package p => exact .done _
  | registry => exact .done _
  | configuration k => exact .done _
  | fragments l => exact (computeFragments_has l : Engine.Demand.Lawful _)
  | toolchains k => exact (computeToolchains_has k : Engine.Demand.Lawful _)
  | target k => exact computeTarget_lawful h k
  | aspect k => exact computeAspect_lawful h k

end AnalysisKey
end BuildAnalysis
