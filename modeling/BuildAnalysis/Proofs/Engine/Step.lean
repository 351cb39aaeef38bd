import Mathlib.Logic.Relation
import BuildAnalysis.Engine.Scheduler
import BuildAnalysis.Proofs.Engine.Consistency
import BuildAnalysis.Proofs.Engine.Run

/-!
# What can happen to an engine

Whatever is asked of an engine, its store and its world change in one of three ways: effects are
performed, a task completes and its value is inserted, or a change is committed. Requests and
attempts only do the first two, whether they end in a value or in an error, and whether or not they
are cancelled on the way.
-/
namespace BuildAnalysis.Engine

variable {S : KeySpace} {compute : Computation S}

inductive Session.Work (compute : Computation S) (s t : Session S) : Prop
  /-- Effects are performed. -/
  | idle (es : List S.Effect) (store : t.store = s.store)
      (world : t.world = S.worldAfter s.world es)
  /-- A task completes on the store as it is. -/
  | complete (k : S.Key) (v : S.Value k) (q : Replay S (Except Suspension (S.Value k)))
      (computed : S.isInjected k = false) (replay : (compute k).replay s.store none = some q)
      (result : q.result = .ok v)
      (store : t.store = (s.store.insertComputed k v (Listing.distinct q.requested)).1)
      (world : t.world = S.worldAfter s.world q.effects)

inductive Session.Step (compute : Computation S) (s t : Session S) : Prop
  | work (h : s.Work compute t)
  | change (c : Change S) (proper : c.Proper) (store : t.store = (s.store.apply c).1)
      (world : t.world = s.world)

abbrev Session.Works (compute : Computation S) : Session S → Session S → Prop :=
  Relation.ReflTransGen (Session.Work compute)

abbrev Session.Steps (compute : Computation S) : Session S → Session S → Prop :=
  Relation.ReflTransGen (Session.Step compute)

theorem Session.Works.steps {s t : Session S} (h : s.Works compute t) : s.Steps compute t := by
  induction h with
  | refl => exact .refl
  | tail _ work ih => exact ih.tail (.work work)

theorem Session.Step.consistent {s t : Session S} (h : s.Step compute t)
    (hs : s.store.Consistent compute) : t.store.Consistent compute := by
  cases h with
  | work h =>
      cases h with
      | idle es store world => rwa [store]
      | complete k v q computed replay result store world =>
          exact store ▸ hs.insertComputed computed replay result
  | change c proper store world => exact store ▸ hs.apply proper

theorem Session.Steps.consistent {s t : Session S} (h : s.Steps compute t)
    (hs : s.store.Consistent compute) : t.store.Consistent compute := by
  induction h with
  | refl => exact hs
  | tail _ step ih => exact step.consistent ih

theorem Session.Work.same {s t : Session S} (store : t.store = s.store)
    (world : t.world = s.world) : s.Work compute t := .idle [] store world

/-- A family of tasks that are those of a lawful family, except that they may be cancelled from
outside anywhere on the way. -/
structure Computation.Interrupts (family compute : Computation S) : Prop where
  lawful : ∀ k, (compute k).Lawful
  uninterrupted : ∀ k, (family k).uninterrupted = compute k

theorem Computation.Interrupts.refl (lawful : ∀ k, (compute k).Lawful) :
    Computation.Interrupts compute compute :=
  ⟨lawful, fun k => (lawful k).uninterrupted_eq⟩

namespace Session

variable {family : Computation S} (h : Computation.Interrupts family compute)

theorem commit_steps (s : Session S) {changes : List (Change S)}
    (proper : ∀ c ∈ changes, c.Proper) : s.Steps compute (s.commit changes) := by
  have happly : s.Steps compute { s with store := (s.store.applyAll changes).1 } := by
    induction changes generalizing s with
    | nil => exact .refl
    | cons c cs ih =>
        have hfirst : s.Step compute { s with store := (s.store.apply c).1 } :=
          .change c (proper c List.mem_cons_self) rfl rfl
        rw [Store.applyAll_cons]
        exact .head hfirst (ih _ fun d hd => proper d (List.mem_cons_of_mem _ hd))
  exact happly.tail (.work (.same rfl rfl))

theorem begin_steps (s : Session S) {changes : List (Change S)}
    (proper : ∀ c ∈ changes, c.Proper) : s.Steps compute (s.begin changes) :=
  .tail (s.commit_steps proper) (.work (.same rfl rfl))

include h in
theorem evaluate_work (nest : Nest S) {k : S.Key} (hk : S.isInjected k = false) (s : Session S) :
    s.Work compute (evaluate family nest k s).2 := by
  obtain ⟨es, hes, completes⟩ :=
    Task.run_lawful nest (h.uninterrupted k ▸ h.lawful k) { session := s }
  unfold evaluate
  generalize (family k).run nest { session := s } = ran at hes completes
  obtain ⟨result, r⟩ := ran
  cases result with
  | ok v =>
      obtain ⟨q, hq, hv, rfl, hd⟩ := completes v rfl
      have hstore : r.session.store = s.store := hes.store
      have hdeps : r.deps = Listing.distinct q.requested := hd
      refine .complete k v q hk ?_ hv ?_ hes.world
      · rw [← h.uninterrupted k, Task.replay_uninterrupted]
        exact hq
      · rw [← hstore, ← hdeps]
        rfl
  | error e =>
      cases e with
      | notReady => exact .idle es hes.store hes.world
      | cancelled => exact .idle es hes.store hes.world

include h in
theorem evaluateAll_works (nest : Nest S) {ks : List S.Key}
    (hks : ∀ k ∈ ks, S.isInjected k = false) (s : Session S) :
    s.Works compute (evaluateAll family nest ks s).2 := by
  induction ks generalizing s with
  | nil => exact .refl
  | cons k ks ih =>
      exact .head (evaluate_work h nest (hks k List.mem_cons_self) s)
        (ih (fun l hl => hks l (List.mem_cons_of_mem _ hl)) _)

theorem settle_work (keepGoing : Bool) (es : List (Evaluated S)) (c : Schedule S)
    (s : Session S) : s.Work compute (settle keepGoing es c s).2 := by
  have hsame : (settle keepGoing es c s).2.store = s.store ∧
      (settle keepGoing es c s).2.world = s.world := by
    induction es generalizing c s with
    | nil => exact ⟨rfl, rfl⟩
    | cons e es ih =>
        obtain ⟨k, outcome⟩ := e
        cases outcome with
        | done value =>
            simp only [settle]
            split
            next => exact ⟨rfl, rfl⟩
            next => exact ih _ _
        | notReady missing => exact ih _ _
        | cancelled => exact ⟨rfl, rfl⟩
  exact .same hsame.1 hsame.2

include h in
theorem runRounds_works (nest : Nest S) (keepGoing : Bool) (rounds : Nat) (c : Schedule S)
    (s : Session S) : s.Works compute (runRounds family nest keepGoing rounds c s).2 := by
  induction rounds generalizing c s with
  | zero => exact .refl
  | succ rounds ih =>
      simp only [runRounds]
      split
      · exact .refl
      split
      · exact .refl
      split
      · exact .refl
      split
      · exact .refl
      split
      next => exact .refl
      next hinjected =>
        have hks : ∀ k ∈ (c.refresh s.store).frontier s.store, S.isInjected k = false :=
          fun k hk => by simpa using List.find?_eq_none.mp hinjected k hk
        have hevaluated : ∀ message, s.Works compute (evaluateAll family nest
            ((c.refresh s.store).frontier s.store) (s.logAt .debug message)).2 :=
          fun message =>
            have hlogged : s.Work compute (s.logAt .debug message) := .same rfl rfl
            .head hlogged (evaluateAll_works h nest hks _)
        split
        next e s' hsettled =>
          obtain rfl := congrArg Prod.snd hsettled
          exact .tail (hevaluated _) (settle_work keepGoing _ _ _)
        next c' s' hsettled =>
          obtain rfl := congrArg Prod.snd hsettled
          exact .trans (.tail (hevaluated _) (settle_work keepGoing _ _ _)) (ih c' _)

include h in
theorem computeWithin_works (rounds depth : Nat) (keepGoing : Bool) (ks : List S.Key)
    (s : Session S) : s.Works compute (computeWithin family rounds depth keepGoing ks s).2 := by
  cases depth with
  | zero => exact .refl
  | succ depth =>
      simp only [computeWithin]
      split
      next e s' hrun =>
        obtain rfl := congrArg Prod.snd hrun
        exact runRounds_works h _ keepGoing rounds _ s
      next s' hrun =>
        obtain rfl := congrArg Prod.snd hrun
        exact runRounds_works h _ keepGoing rounds _ s

include h in
/-- An attempt at a key evaluates at most one key. -/
theorem attempt_works (bounds : Bounds) (k : S.Key) (s : Session S) :
    s.Works compute (s.attempt family bounds k).2 := by
  unfold attempt
  split
  next => exact .refl
  next =>
    split
    next => exact .refl
    next hk =>
      have hwork := evaluate_work h (nestWithin family bounds) (by simpa using hk) s
      split
      all_goals
        next hr =>
          rw [hr] at hwork
          exact .single hwork

end Session
end BuildAnalysis.Engine
