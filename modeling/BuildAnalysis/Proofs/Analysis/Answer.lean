import BuildAnalysis.Proofs.Analysis.Restart
import BuildAnalysis.Proofs.Engine.Answer

/-!
# The failures that an analysis answers

Analysis that does not go on after failures ends with the first failure that it comes upon. What it
comes upon are the failures of the keys that it has just evaluated. A failure that is cached from
before is answered in its place among the values, however often it is asked for.
-/
namespace BuildAnalysis

open Engine (Store)

namespace AnalysisSession

variable {services : Option Services}

/-- Two lists answer each other: each value is a failure just if it is cached for its key. -/
def AnswersFrom (st : Store analysisSpace) :
    List TargetKey → List (Except Failure TargetValue) → Prop :=
  List.Forall₂ fun k v => ∀ x, v = .error x ↔ st.failure? (.target k) = some x

theorem computation_cancels (h : ServicesRestartable services) :
    (AnalysisKey.computation services).Cancels (AnalysisKey.computation services) := by
  intro k
  cases k with
  | package p => rfl
  | registry => rfl
  | _ => exact (AnalysisKey.computation_restartable h _ rfl).uninterrupted_eq

theorem failure?_target {k : TargetKey} {v : Except Failure TargetValue} {x : Failure} :
    analysisSpace.failure? (.target k) v = some x ↔ v = .error x := by
  cases v with
  | ok value => simp [analysisSpace, AnalysisKey.failure?]
  | error e => simp [analysisSpace, AnalysisKey.failure?]

theorem answersFrom_reads {st : Store analysisSpace} {ks : List TargetKey}
    {vs : List (Except Failure TargetValue)}
    (h : st.Reads AnalysisKey.target (fun _ v => v) ks vs) : AnswersFrom st ks vs := by
  refine h.imp fun k v ⟨w, hw, heq⟩ x => ?_
  subst heq
  rw [Store.failure?_of_value? hw, failure?_target]

theorem AnswersFrom.congr {st st' : Store analysisSpace} {ks : List TargetKey}
    {vs : List (Except Failure TargetValue)} (h : AnswersFrom st ks vs)
    (same : ∀ k ∈ ks, ∀ x, st.failure? (.target k) = some x ↔ st'.failure? (.target k) = some x) :
    AnswersFrom st' ks vs := by
  induction h with
  | nil => exact .nil
  | cons hfirst _ ih =>
      obtain ⟨hsame, hrest⟩ := List.forall_mem_cons.mp same
      exact .cons (fun x => (hfirst x).trans (hsame x)) (ih hrest)

/-- The session in which targets are analyzed. -/
def analyzing (settings : AnalysisSettings) (ks : List TargetKey) (s : AnalysisSession) :
    AnalysisSession :=
  Engine.Session.begin (Engine.Session.logAt s .debug
    s!"Analyzing {ks.length} targets, keep going: {settings.keepGoing}") []

theorem analyzing_store (settings : AnalysisSettings) (ks : List TargetKey) (s : AnalysisSession) :
    (s.analyzing settings ks).store = s.store := rfl

theorem analyze_eq (s : Services) (ks : List TargetKey) (a : AnalysisSession) :
    (a.analyze (some s) ks).1 =
      (((a.analyzing s.settings ks).computeTargets (some s) s.settings.keepGoing ks).1.mapError
        Engine.RequestError.toFailure) := rfl

theorem answersFrom_analyze (h : ServicesRestartable services) {s : Services}
    (hs : services = some s) (stops : s.settings.keepGoing = false) {ks : List TargetKey}
    {vs : List (Except Failure TargetValue)} {a : AnalysisSession}
    (hanalyze : (a.analyze services ks).1 = .ok vs) : AnswersFrom a.store ks vs := by
  subst hs
  rw [analyze_eq, stops] at hanalyze
  simp only [computeTargets, Engine.Session.computeAll] at hanalyze
  generalize hserved : Engine.Session.computeMany (AnalysisKey.computation (some s)) {} false
    (ks.map AnalysisKey.target) (a.analyzing s.settings ks) = served at hanalyze
  obtain ⟨result, t⟩ := served
  cases result with
  | error e => cases hanalyze
  | ok ws =>
      obtain rfl := Except.ok.inj hanalyze
      have hvalues := (Engine.Session.of_computeMany_ok hserved).2
      refine (answersFrom_reads (Store.reads_toList hvalues)).congr fun k hk x => ?_
      have hmem : AnalysisKey.target k ∈ ks.map AnalysisKey.target := List.mem_map_of_mem hk
      have hcached := Engine.Session.mem_failures_iff_cached
        (AnalysisKey.computation_restartable h) (computation_cancels h) hserved
        (k := AnalysisKey.target k) (x := x)
      exact (and_congr_right_iff.mp ((Store.mem_failures hvalues).symm.trans hcached)) hmem

/-- A target whose failure is cached is analyzed to it, without being evaluated again. -/
theorem analyze_of_failure? (s : Services) {a : AnalysisSession} {k : TargetKey} {x : Failure}
    (h : a.store.failure? (.target k) = some x) :
    (a.analyze (some s) [k]).1 = .ok [.error x] := by
  rw [← a.analyzing_store s.settings [k]] at h
  obtain ⟨v, hserved, hx⟩ := Engine.Session.computeMany_of_failure?
    (AnalysisKey.computation (some s)) {} s.settings.keepGoing h
  obtain rfl := failure?_target.mp hx
  exact congrArg (fun served => (served.1.map
    (Engine.Values.toList AnalysisKey.target (fun _ v => v) [k])).mapError
    Engine.RequestError.toFailure) hserved

end AnalysisSession

/-- Let the tasks of an engine suspend only as their requests tell them to, and let the engine be in
any state. If a request that does not go on after failures is answered with values, then the
failures among them are exactly those that were cached for the requested keys before the request,
and those that a trial of the request has made of a key which it did not complete. If such a request
ends with the failure of a key, then the key had no value before; as long as nothing changes, no
request ends with a failure of that key again, and a request for it is answered with the failure.
Analysis with restartable implementations makes no failures aside: analyzing targets without going
on after failures, if it is answered, is answered with exactly the failures that were cached before;
and a target whose failure is cached is analyzed to that failure. -/
theorem cached_failures_answered {services : Option Services}
    (hservices : ServicesRestartable services) {S : Engine.KeySpace}
    {compute : Engine.Computation S} (hcompute : compute.SuspendsAtRequests)
    (e : Engine.Session S) (a : AnalysisSession) :
    e.AnswersCached compute ∧
      ∀ s, services = some s → s.settings.keepGoing = false →
        (∀ ks vs, (a.analyze services ks).1 = .ok vs →
          AnalysisSession.AnswersFrom a.store ks vs) ∧
        ∀ k x, a.store.failure? (.target k) = some x →
          (a.analyze services [k]).1 = .ok [.error x] := by
  refine ⟨e.answersCached hcompute, fun s hs stops => ⟨fun ks vs hanalyze => ?_, fun k x hk => ?_⟩⟩
  · exact AnalysisSession.answersFrom_analyze hservices hs stops hanalyze
  · subst hs
    exact AnalysisSession.analyze_of_failure? s hk

end BuildAnalysis

/-! A node whose program fails, requested twice. -/

namespace BuildAnalysis.AnswerSample

open BuiltinRules.AliasSample (loading optLabel package services start)
open Engine.Script (NodeKey blank space)

def boom : Failure := .new .input "boom"

/-- A family in which a node has a program that fails. -/
def program : Engine.Computation space := Engine.Script.computation [("x", [.fail .input "boom"])]

def node : space.Key := NodeKey.node "x"

def bounds : Engine.Bounds := { rounds := 2, depth := 0 }

/-- A request for the node. -/
def once : Except (Engine.RequestError space) (Engine.Values space [node]) ×
    Engine.Session space := blank.computeMany program bounds false [node]

/-- The same request in the next transaction, which changes nothing. -/
def twice : Except (Engine.RequestError space) (Engine.Values space [node]) ×
    Engine.Session space := (once.2.begin []).computeMany program bounds false [node]

theorem once_eq : once.1 = .error (.failFast node boom) := rfl

/-- A request that ended with a failure is answered with it when it is repeated. -/
theorem repeated_request_answers_failure : once.1 = .error (.failFast node boom) ∧
    ∃ vs, twice.1 = .ok vs ∧ (node, boom) ∈ vs.failures :=
  ⟨rfl, .cons (.error boom) .nil, rfl, List.mem_singleton_self (node, boom)⟩

theorem program_suspendsAtRequests : program.SuspendsAtRequests := by
  intro k hk
  have hdone : ∀ {k : space.Key} (v : space.Value k),
      (Engine.Task.done (.ok v) : Engine.Task space (Except Engine.Suspension _)).Suspends [] :=
    fun v => .done fun _ he => by cases he
  -- Nodes of other names, and their mirrors, have the empty program.
  have hfind : ∀ name, Listing.find? name [("x", [Engine.Script.Instruction.fail .input "boom"])] =
      if "x" = name then some [.fail .input "boom"] else none := fun name => rfl
  cases k with
  | base name => cases hk
  | node name =>
      change Engine.Task.Suspends [] (Engine.Script.compute _ (999 + 1) (.node name)).run
      rw [Engine.Script.compute, NodeKey.name, hfind]
      split
      · exact .perform (.perform (hdone (k := .node name) (.error boom)))
      · exact .perform (.perform (hdone (k := .node name) (.ok 0)))
  | mirror name =>
      change Engine.Task.Suspends [] (Engine.Script.compute _ (999 + 1) (.mirror name)).run
      rw [Engine.Script.compute, NodeKey.name, hfind]
      split
      · exact .perform (.perform (hdone (k := .mirror name) (.error boom)))
      · exact .perform (.perform (hdone (k := .mirror name) (.ok 0)))

def missing : TargetKey := ⟨⟨optLabel.package, ⟨"absent", rfl, by decide⟩⟩, none, none⟩

/-- The package is loaded, and a first analysis of the target has failed. -/
def analyzed : AnalysisSession :=
  (AnalysisSession.analyze (some services) [missing]
    (Engine.Session.after start [loading [package]])).2

theorem missing_failed : ∃ x, analyzed.store.failure? (.target missing) = some x :=
  Option.isSome_iff_exists.mp (by decide +kernel)

theorem cached_failures_answered_node : ServicesRestartable (some services) ∧
    program.SuspendsAtRequests ∧ services.settings.keepGoing = false ∧
    (once.1 = .error (.failFast node boom) ∧
      ∃ v, twice.1 = .ok (.cons v .nil) ∧ space.failure? node v = some boom) ∧
    ∃ x, analyzed.store.failure? (.target missing) = some x ∧
      (analyzed.analyze (some services) [missing]).1 = .ok [.error x] := by
  obtain ⟨hengine, hanalysis⟩ := cached_failures_answered RestartSample.services_restartable
    program_suspendsAtRequests blank analyzed
  obtain ⟨x, hx⟩ := missing_failed
  refine ⟨RestartSample.services_restartable, program_suspendsAtRequests, rfl, ⟨once_eq, ?_⟩,
    x, hx, (hanalysis services rfl rfl).2 missing x hx⟩
  obtain ⟨_, hagain⟩ := hengine.failed bounds [node] node boom once.2 (Prod.ext once_eq rfl)
  obtain ⟨⟨v, hv, hboom⟩, _⟩ := hagain (once.2.begin []) bounds rfl
  exact ⟨v, congrArg Prod.fst hv, hboom⟩

end BuildAnalysis.AnswerSample
