import BuildAnalysis.Proofs.Analysis.Composition
import BuildAnalysis.Proofs.Analysis.Permit
import BuildAnalysis.Proofs.Engine.Effects

/-!
# The permits of an evaluation

Whatever the evaluation of a target comes to, a value, a failure, missing values or a cancellation,
it enters its section once, gives its permit back around each request if it is told to, and drops
the section at its end. So the evaluations of targets share their pool as evaluations do that are
known by nothing else, and no permit is lost, granted twice or waited for in vain.
-/
namespace BuildAnalysis

open Engine (Running)
open Engine.Task (Leaves Performs RunsTo)
open Relation (ReflTransGen)

/-- Whether an effect takes a permit or gives one back. -/
def AnalysisEffect.isPermit : AnalysisEffect → Bool
  | work | rest => true
  | deliver _ | finish _ => false

def permitsOf (es : List AnalysisEffect) : List AnalysisEffect := es.filter AnalysisEffect.isPermit

/-- What an evaluation that waits for values so many times does with its permit: it takes one, gives
it back and takes one again around each wait, and gives it back. -/
def permitEffects (fetches : Nat) : List AnalysisEffect :=
  .work :: (List.replicate fetches [.rest, .work]).flatten ++ [.rest]

theorem permitsOf_permitEffects (n : Nat) : permitsOf (permitEffects n) = permitEffects n := by
  refine List.filter_eq_self.mpr fun e he => ?_
  simp only [permitEffects, List.cons_append, List.mem_cons, List.mem_append, List.mem_flatten,
    List.mem_replicate, List.not_mem_nil, or_false] at he
  rcases he with rfl | ⟨es, ⟨-, rfl⟩, he⟩ | rfl
  · rfl
  · simp only [List.mem_cons, List.not_mem_nil, or_false] at he
    rcases he with rfl | rfl <;> rfl
  · rfl

theorem permitsOf_append {es fs : List AnalysisEffect} (h : permitsOf fs = []) :
    permitsOf (es ++ fs) = permitsOf es := by
  rw [permitsOf, List.filter_append]
  exact (congrArg (_ ++ ·) h).trans (List.append_nil _)

theorem permitsOf_delivered (events : List Event) :
    permitsOf (events.map AnalysisEffect.deliver) = [] := by
  refine List.filter_eq_nil_iff.mpr fun e he => ?_
  obtain ⟨event, -, rfl⟩ := List.mem_map.mp he
  exact Bool.false_ne_true

namespace AnalysisKey

variable {o o' : Option Unit} {es : List AnalysisEffect}

/-- Whatever an evaluation comes to, it has entered and dropped its section. -/
theorem performs_inSection {α : Type} {unblock : Bool} {d : Demand α} (hd : d.Asks)
    {x : Except Engine.Suspension α}
    (h : Performs (S := analysisSpace) o (inSection unblock d) es x o') :
    ∃ fetches, es = permitEffects fetches ∧ (unblock = false → fetches = 0) := by
  change Performs (S := analysisSpace) o (.perform .work
    (.observe (if unblock then some () else none) fun previous => Engine.Task.bind d.run fun y =>
      .observe previous fun _ => .perform .rest (.done y))) es x o' at h
  obtain ⟨es₁, rfl, hobserved⟩ := h.of_perform
  obtain ⟨es₂, es₃, y, o₁, rfl, hrun, hlast⟩ := hobserved.of_observe.of_bind
  obtain ⟨es₄, rfl, hdone⟩ := hlast.of_observe.of_perform
  obtain ⟨rfl, -⟩ := hdone.of_done
  obtain ⟨-, n, rfl⟩ := Engine.Task.Asks.performs hd hrun
  cases unblock with
  | true => exact ⟨n, rfl, fun h => nomatch h⟩
  | false =>
      refine ⟨0, ?_, fun _ => rfl⟩
      have hnone : (List.replicate n ([] : List AnalysisEffect)).flatten = [] := by simp
      exact congrArg (fun es => AnalysisEffect.work :: (es ++ [.rest])) hnone

theorem performs_performAll {fs : List AnalysisEffect} {u : Unit}
    (h : Performs (S := analysisSpace) o (performAll fs) es u o') : es = fs := by
  induction fs generalizing es with
  | nil => exact (Performs.of_done h).1
  | cons f fs ih =>
      change Performs (S := analysisSpace) o (.perform f (performAll fs)) es u o' at h
      obtain ⟨es', rfl, hrest⟩ := h.of_perform
      exact congrArg (f :: ·) (ih hrest)

theorem performs_deliver_bind {α : Type} {f : Findings} {d : Demand α}
    {x : Except Engine.Suspension α}
    (h : Performs (S := analysisSpace) o
      (do Engine.Demand.lift (deliver f); d : Demand α).run es x o') :
    ∃ es' o₁, es = f.events.map AnalysisEffect.deliver ++ es' ∧
      Performs (S := analysisSpace) o₁ d.run es' x o' := by
  obtain ⟨es₁, es', y, o₁, rfl, hdeliver, hd⟩ := Performs.of_bind h
  obtain ⟨es₂, es₃, u, o₂, rfl, hall, hdone⟩ := Performs.of_bind hdeliver
  obtain ⟨rfl, rfl⟩ := hdone.of_done
  exact ⟨es', o₁, congrArg (· ++ es') ((List.append_nil es₂).trans (performs_performAll hall)), hd⟩

/-- What the evaluation of a target does with permits, whatever it comes to. -/
theorem performs_computeTarget {services : Option Services} {s : Services}
    (hs : services = some s) (asks : s.implementations.Have Engine.Demand.Asks) {k : TargetKey}
    {x : Except Engine.Suspension (Except Failure TargetValue)}
    (h : Performs (S := analysisSpace) o (computeTarget services k).run es x o') :
    ∃ fetches, permitsOf es = permitEffects fetches ∧
      (s.settings.unblockWhileFetching = false → fetches = 0) := by
  subst hs
  obtain ⟨es₁, es₂, y, o₁, rfl, hsection, hrest⟩ := Performs.of_bind h
  obtain ⟨n, rfl, hn⟩ := performs_inSection (k.evaluate_has asks _) hsection
  have hidle : permitsOf es₂ = [] := by
    cases y with
    | error e =>
        obtain ⟨rfl, -⟩ := Performs.of_done hrest
        rfl
    | ok p =>
        obtain ⟨result, found⟩ := p
        cases result with
        | ok value =>
            obtain ⟨es₃, o₂, rfl, hlast⟩ := performs_deliver_bind hrest
            obtain ⟨es₄, rfl, hdone⟩ := Performs.of_perform hlast
            obtain ⟨rfl, -⟩ := Performs.of_done hdone
            exact (permitsOf_append rfl).trans (permitsOf_delivered _)
        | error a =>
            obtain ⟨es₃, o₂, rfl, hlast⟩ := performs_deliver_bind hrest
            obtain ⟨rfl, -⟩ := Performs.of_done (Performs.of_log hlast)
            exact (permitsOf_append rfl).trans (permitsOf_delivered _)
  exact ⟨n, (permitsOf_append hidle).trans (permitsOf_permitEffects n), hn⟩

/-- At each moment of any number of evaluations that share a pool, in whatever order they take
turns, all permits are accounted for, no more evaluations work than there are permits, whoever waits
for a permit holds none, and all evaluations can still come to their end, with all permits back in
the pool. And every run of the evaluation of a target, whatever it comes to and whenever it is
cancelled, takes its permit, gives it back around each request if it is told to, and gives it back
at its end. -/
theorem permits_kept (capacity n : Nat) :
    (∀ s, ReflTransGen Evaluations.Step (.start capacity n) s → s.Kept capacity) ∧
    ∀ (services : Services) (k : TargetKey) (r r' : Running analysisSpace)
      (x : Except Engine.Suspension (Except Failure TargetValue)),
      services.implementations.Have Engine.Demand.Asks →
      RunsTo (computeTarget (some services) k).run r x r' →
      ∃ es fetches, Performs r.observer (computeTarget (some services) k).run es x r'.observer ∧
        Leaves r.session r'.session es ∧ permitsOf es = permitEffects fetches ∧
        (services.settings.unblockWhileFetching = false → fetches = 0) := by
  refine ⟨fun s hs => Evaluations.kept hs, fun services k r r' x asks hrun => ?_⟩
  obtain ⟨es, hes, hleaves⟩ := hrun.performs
  obtain ⟨fetches, hpermits, hnone⟩ := performs_computeTarget rfl asks hes
  exact ⟨es, fetches, hes, hleaves, hpermits, hnone⟩

/-- Two evaluations and one permit: the second one works while the first one waits for values, and
for the permit after that. -/
def oneWaits : Evaluations :=
  { pool := ⟨⟨1, 0⟩, [.section false, .section true]⟩
    outside := 0
    phases := [.fetching, .working] }

theorem permits_kept_oneWaits :
    oneWaits.Kept 0 ∧ oneWaits.pool.step (.resume 0) = none ∧ oneWaits.heldBy 0 = 0 := by
  have first : Evaluations.Step (.start 0 2) ⟨⟨⟨1, 0⟩, [.section true]⟩, 1, [.working]⟩ :=
    .enter rfl
  have fetch : Evaluations.Step ⟨⟨⟨1, 0⟩, [.section true]⟩, 1, [.working]⟩
      ⟨⟨⟨1, 1⟩, [.section false]⟩, 1, [.fetching]⟩ := .preFetch (i := 0) rfl rfl
  have second : Evaluations.Step ⟨⟨⟨1, 1⟩, [.section false]⟩, 1, [.fetching]⟩ oneWaits :=
    .enter rfl
  have hkept := (permits_kept 0 2).1 oneWaits (.tail (.tail (.single first) fetch) second)
  exact ⟨hkept, rfl, hkept.waiting 0 (.resume 0) (by decide) rfl⟩

end AnalysisKey
end BuildAnalysis
