import BuildAnalysis.Proofs.Engine.Answer

/-!
# Ending with the first failure

A request that does not go on after failures is one that does, cut off after the round in which a
key was first computed to a failure. Until then both run the same tasks in the same sessions; only
what is logged of the last round differs. Without such a key they come to the same.
-/
namespace BuildAnalysis.Engine

variable {S : KeySpace}

/-- The key of an outcome with the failure that it was computed to. -/
def Evaluated.failure? (e : Evaluated S) : Option (S.Key × Failure) :=
  match e.outcome with
  | .done v => (S.failure? e.key v).map (e.key, ·)
  | .notReady _ => none
  | .cancelled => none

/-- The first key that was computed to a failure, with its failure. -/
def Trial.firstFailure? (ran : List (Trial S)) : Option (S.Key × Failure) :=
  ran.findSome? fun e => e.evaluated.failure?

namespace Trial

@[simp] theorem firstFailure?_nil : firstFailure? ([] : List (Trial S)) = none := rfl

theorem firstFailure?_append (xs ys : List (Trial S)) :
    firstFailure? (xs ++ ys) = (firstFailure? xs).or (firstFailure? ys) :=
  List.findSome?_append

theorem firstFailure?_trialsOf (compute : Computation S) (nest : Nest S) (ks : List S.Key)
    (s : Session S) : firstFailure? (trialsOf compute nest ks s) =
      (evaluateAll compute nest ks s).1.findSome? Evaluated.failure? := by
  rw [evaluateAll_fst, List.findSome?_map]
  rfl

end Trial

/-! ### One round -/

section Settle

variable {es : List (Evaluated S)} {c c' : Schedule S} {s t : Session S}

theorem eq_cancelled_of_settle {e : RequestError S} (h : settle true es c s = (.error e, t)) :
    e = .cancelled := by
  induction es generalizing c s with
  | nil => cases h
  | cons first es ih =>
      obtain ⟨k, outcome⟩ := first
      cases outcome with
      | done value => exact ih h
      | notReady missing => exact ih h
      | cancelled =>
          cases h
          rfl

/-- Without failures it makes no difference whether a request goes on after them. -/
theorem settle_of_untroubled (h : settle true es c s = (.ok c', t))
    (untroubled : ∀ e ∈ es, e.failure? = none) : settle false es c s = (.ok c', t) := by
  induction es generalizing c s with
  | nil => exact h
  | cons first es ih =>
      obtain ⟨k, outcome⟩ := first
      obtain ⟨hfirst, hrest⟩ := List.forall_mem_cons.mp untroubled
      cases outcome with
      | done value =>
          have hnone : S.failure? k value = none := by
            simpa [Evaluated.failure?] using hfirst
          simp only [settle, Bool.false_eq_true, ite_false, hnone]
          exact ih h hrest
      | notReady missing => exact ih h hrest
      | cancelled => cases h

/-- The first failure of a round ends a request that does not go on. -/
theorem settle_of_failing (h : settle true es c s = (.ok c', t)) {k : S.Key} {x : Failure}
    (failing : es.findSome? Evaluated.failure? = some (k, x)) :
    (settle false es c s).1 = .error (.failFast k x) := by
  induction es generalizing c s with
  | nil => cases failing
  | cons first es ih =>
      obtain ⟨l, outcome⟩ := first
      rw [List.findSome?_cons] at failing
      cases outcome with
      | done value =>
          simp only [settle, Bool.false_eq_true, ite_false]
          cases hfailure : S.failure? l value with
          | none =>
              simp only [Evaluated.failure?, hfailure, Option.map_none] at failing
              exact ih h failing
          | some y =>
              simp only [Evaluated.failure?, hfailure, Option.map_some,
                Option.some.injEq] at failing
              cases failing
              rfl
      | notReady missing => exact ih h failing
      | cancelled => cases h

end Settle

/-! ### All rounds -/

/-- How rounds that do not go on after the failure of a key are those that do, cut off: `n` rounds
run alike, the one after them is the first with a failure, and the last that runs. -/
structure CutAfter (compute : Computation S) (nest : Nest S) (c : Schedule S) (s : Session S)
    (rounds n : Nat) (k : S.Key) (x : Failure) : Prop where
  lt : n < rounds
  untroubled : Trial.firstFailure? (trialsWithin compute nest true n c s) = none
  failed : Trial.firstFailure? (trialsWithin compute nest true (n + 1) c s) = some (k, x)
  alike : ∀ m ≤ n, runRounds compute nest false m c s = runRounds compute nest true m c s
  state : (runRounds compute nest false (n + 1) c s).2.state =
    (runRounds compute nest true (n + 1) c s).2.state
  ends : ∀ m, n < m → runRounds compute nest false m c s =
    (.error (.failFast k x), (runRounds compute nest false (n + 1) c s).2)
  trials : ∀ m, n < m → trialsWithin compute nest false m c s =
    trialsWithin compute nest true (n + 1) c s

section Rounds

variable {compute : Computation S} {nest : Nest S} {c c' c'' : Schedule S} {s t : Session S}
  {frontier : List S.Key} {k : S.Key} {x : Failure}

theorem CutAfter.next (hc : c.opening s = .go c' frontier)
    (hsettle : settle true (evaluateAll compute nest frontier (s.announce c' frontier)).1 c'
      (evaluateAll compute nest frontier (s.announce c' frontier)).2 = (.ok c'', t))
    (failing : Trial.firstFailure? (trialsOf compute nest frontier (s.announce c' frontier)) =
      some (k, x)) (rounds : Nat) : CutAfter compute nest c s (rounds + 1) 0 k x := by
  rw [Trial.firstFailure?_trialsOf] at failing
  have hresult := settle_of_failing hsettle failing
  generalize hstopped : settle false
    (evaluateAll compute nest frontier (s.announce c' frontier)).1 c'
    (evaluateAll compute nest frontier (s.announce c' frontier)).2 = stopped at hresult
  obtain ⟨result, u⟩ := stopped
  obtain rfl : result = .error (.failFast k x) := hresult
  have hlast : trialsWithin compute nest true 1 c s =
      trialsOf compute nest frontier (s.announce c' frontier) := by
    rw [trialsWithin_go hc hsettle]
    exact List.append_nil _
  refine ⟨Nat.succ_pos _, rfl, ?_, fun m hm => ?_, ?_, fun m hm => ?_, fun m hm => ?_⟩
  · rw [hlast, Trial.firstFailure?_trialsOf, failing]
  · rw [Nat.le_zero.mp hm]
    rfl
  · rw [runRounds_go_error hc hstopped, runRounds_go hc hsettle]
    exact (Happening.state_settle hstopped).trans (Happening.state_settle hsettle).symm
  · obtain ⟨m, rfl⟩ := Nat.exists_eq_succ_of_ne_zero (Nat.ne_of_gt hm)
    rw [runRounds_go_error hc hstopped, runRounds_go_error hc hstopped]
  · obtain ⟨m, rfl⟩ := Nat.exists_eq_succ_of_ne_zero (Nat.ne_of_gt hm)
    rw [trialsWithin_go_error hc hstopped, hlast]

theorem CutAfter.later (hc : c.opening s = .go c' frontier)
    (hsettle : ∀ keepGoing, settle keepGoing
      (evaluateAll compute nest frontier (s.announce c' frontier)).1 c'
      (evaluateAll compute nest frontier (s.announce c' frontier)).2 = (.ok c'', t))
    (untroubled : Trial.firstFailure? (trialsOf compute nest frontier (s.announce c' frontier)) =
      none) {rounds n : Nat} (h : CutAfter compute nest c'' t rounds n k x) :
    CutAfter compute nest c s (rounds + 1) (n + 1) k x := by
  have hrun := fun keepGoing => runRounds_go hc (hsettle keepGoing)
  have htrials := fun keepGoing => trialsWithin_go hc (hsettle keepGoing)
  refine ⟨Nat.succ_lt_succ h.lt, ?_, ?_, fun m hm => ?_, ?_, fun m hm => ?_, fun m hm => ?_⟩
  · rw [htrials, Trial.firstFailure?_append, untroubled, h.untroubled]
    rfl
  · rw [htrials, Trial.firstFailure?_append, untroubled, h.failed]
    rfl
  · cases m with
    | zero => rfl
    | succ m =>
        rw [hrun, hrun]
        exact h.alike m (Nat.le_of_succ_le_succ hm)
  · rw [hrun, hrun]
    exact h.state
  · obtain ⟨m, rfl⟩ := Nat.exists_eq_succ_of_ne_zero (Nat.ne_zero_of_lt hm)
    rw [hrun, hrun]
    exact h.ends m (Nat.lt_of_succ_lt_succ hm)
  · obtain ⟨m, rfl⟩ := Nat.exists_eq_succ_of_ne_zero (Nat.ne_zero_of_lt hm)
    rw [htrials, htrials, h.trials m (Nat.lt_of_succ_lt_succ hm)]

/-- Rounds that are not cancelled run alike if no key is computed to a failure, and are cut off at
the first one otherwise. -/
theorem runRounds_cut (rounds : Nat)
    (uncancelled : (runRounds compute nest true rounds c s).1 ≠ .error .cancelled) :
    match Trial.firstFailure? (trialsWithin compute nest true rounds c s) with
    | none => runRounds compute nest false rounds c s = runRounds compute nest true rounds c s
    | some (k, x) => ∃ n, CutAfter compute nest c s rounds n k x := by
  induction rounds, c, s using rounds_induction compute nest true with
  | out => rfl
  | ended _ _ _ _ hc =>
      rw [trialsWithin_ended hc, runRounds_ended hc, runRounds_ended hc]
      rfl
  | failed _ _ _ _ _ _ _ hc hsettle =>
      obtain rfl := eq_cancelled_of_settle hsettle
      rw [runRounds_go_error hc hsettle] at uncancelled
      exact absurd rfl uncancelled
  | next rounds c s c' frontier c'' t hc hsettle ih =>
      rw [runRounds_go hc hsettle] at uncancelled ⊢
      rw [trialsWithin_go hc hsettle, Trial.firstFailure?_append]
      cases hround : Trial.firstFailure?
        (trialsOf compute nest frontier (s.announce c' frontier)) with
      | some failure =>
          obtain ⟨k, x⟩ := failure
          exact ⟨0, .next hc hsettle hround rounds⟩
      | none =>
          have hboth : ∀ keepGoing, settle keepGoing
              (evaluateAll compute nest frontier (s.announce c' frontier)).1 c'
              (evaluateAll compute nest frontier (s.announce c' frontier)).2 = (.ok c'', t) := by
            rw [Trial.firstFailure?_trialsOf, List.findSome?_eq_none_iff] at hround
            intro keepGoing
            cases keepGoing with
            | true => exact hsettle
            | false => exact settle_of_untroubled hsettle hround
          have hrest := ih uncancelled
          rw [Option.none_or, runRounds_go hc (hboth false)]
          cases hlater : Trial.firstFailure? (trialsWithin compute nest true rounds c'' t) with
          | none =>
              rw [hlater] at hrest
              exact hrest
          | some failure =>
              obtain ⟨k, x⟩ := failure
              rw [hlater] at hrest
              obtain ⟨n, hcut⟩ := hrest
              exact ⟨n + 1, .later hc hboth hround hcut⟩

theorem runRounds_ne_failFast (rounds : Nat) :
    (runRounds compute nest true rounds c s).1 ≠ .error (.failFast k x) := by
  induction rounds, c, s using rounds_induction compute nest true with
  | out =>
      simp only [runRounds]
      split <;> simp
  | ended _ _ _ _ hc =>
      rw [runRounds_ended hc]
      rcases Schedule.of_opening_ended hc with rfl | rfl | ⟨_, rfl⟩ | ⟨_, rfl⟩ <;> simp
  | failed _ _ _ _ _ _ _ hc hsettle =>
      rw [runRounds_go_error hc hsettle, eq_cancelled_of_settle hsettle]
      simp
  | next _ _ _ _ _ _ _ hc hsettle ih =>
      rw [runRounds_go hc hsettle]
      exact ih

end Rounds

namespace Session

structure CutOff (compute : Computation S) (bounds : Bounds) (ks : List S.Key) (s : Session S) :
    Prop where
  /-- It ends with the failure of a key exactly if that is the first failure in the other one. -/
  failFast : ∀ k x, (s.computeMany compute bounds false ks).1 = .error (.failFast k x) ↔
    Trial.firstFailure? (s.trials compute bounds true ks) = some (k, x)
  /-- Up to and including the round of the first failure, which is the last round that it runs, both
  run the same trials and leave the engine in the same states. -/
  agree : ∀ k x, Trial.firstFailure? (s.trials compute bounds true ks) = some (k, x) →
    ∃ n < bounds.rounds,
      Trial.firstFailure? (s.trialsUpTo compute bounds true ks n) = none ∧
      Trial.firstFailure? (s.trialsUpTo compute bounds true ks (n + 1)) = some (k, x) ∧
      s.trials compute bounds false ks = s.trialsUpTo compute bounds true ks (n + 1) ∧
      (∀ m ≤ n, s.runUpTo compute bounds false ks m = s.runUpTo compute bounds true ks m) ∧
      (s.computeMany compute bounds false ks).2.state =
        (s.runUpTo compute bounds true ks (n + 1)).2.state
  /-- Without a failure they come to the same and leave the engine the same. -/
  same : Trial.firstFailure? (s.trials compute bounds true ks) = none →
    s.computeMany compute bounds false ks = s.computeMany compute bounds true ks

variable {compute : Computation S} {bounds : Bounds} {ks : List S.Key} {s : Session S}

theorem computeMany_of_run_error {keepGoing : Bool} {e : RequestError S} {t : Session S}
    (h : s.run compute bounds keepGoing ks = (.error e, t)) :
    s.computeMany compute bounds keepGoing ks = (.error e, t) := by
  rw [computeMany_eq, h]

/-- A request that goes on after failures does not end with one. -/
theorem computeMany_ne_failFast (k : S.Key) (x : Failure) :
    (s.computeMany compute bounds true ks).1 ≠ .error (.failFast k x) := fun h =>
  runRounds_ne_failFast bounds.rounds
    (congrArg Prod.fst (run_of_failFast (Prod.ext h rfl)))

/-- In a request that is not cancelled, not going on after failures means to be cut off after the
round of the first failure. -/
theorem fail_fast_cuts_off
    (uncancelled : (s.computeMany compute bounds true ks).1 ≠ .error .cancelled) :
    s.CutOff compute bounds ks := by
  have hrun : (s.run compute bounds true ks).1 ≠ .error .cancelled := fun h =>
    uncancelled (congrArg Prod.fst (computeMany_of_run_error (Prod.ext h rfl)))
  have hcut := runRounds_cut bounds.rounds hrun
  -- Both requests collect the values that their rounds have left, so the rounds decide.
  change match Trial.firstFailure? (s.trials compute bounds true ks) with
    | none => s.run compute bounds false ks = s.run compute bounds true ks
    | some (k, x) =>
      ∃ n, CutAfter compute (nestWithin compute bounds) (s.schedule ks) s bounds.rounds n k x
    at hcut
  cases hfirst : Trial.firstFailure? (s.trials compute bounds true ks) with
  | none =>
      rw [hfirst] at hcut
      have hsame : s.computeMany compute bounds false ks =
          s.computeMany compute bounds true ks := by
        rw [computeMany_eq, computeMany_eq, hcut]
      refine ⟨fun k x => ?_, fun k x h => ?_, fun _ => hsame⟩
      · rw [hsame, hfirst]
        exact iff_of_false (computeMany_ne_failFast k x) (by simp)
      · rw [hfirst] at h
        cases h
  | some failure =>
      obtain ⟨l, y⟩ := failure
      rw [hfirst] at hcut
      obtain ⟨n, hcut⟩ := hcut
      have hended := computeMany_of_run_error (hcut.ends bounds.rounds hcut.lt)
      refine ⟨fun k x => ?_, fun k x h => ?_, fun h => ?_⟩
      · rw [hended, hfirst]
        simp
      · rw [hfirst] at h
        cases h
        refine ⟨n, hcut.lt, hcut.untroubled, hcut.failed, hcut.trials bounds.rounds hcut.lt,
          hcut.alike, ?_⟩
        rw [hended]
        exact hcut.state
      · rw [hfirst] at h
        cases h

end Session

namespace Script

/-- Why a node of `refusing` fails. -/
def refusal : Failure := .new .input "refused"

/-- A family in which every node fails, and a mirror has what the node of its name has come to. -/
def refusing : Computation space
  | .base _ => .done (.error .notReady)
  | .node _ => .done (.ok (.error refusal))
  | .mirror name => .request (S := space) [NodeKey.node name] fun
      | .ok (.cons n _) => .done (.ok n)
      | .error e => .done (.error e)

/-- Two mirrors wait for their nodes in the first round, and in the second both nodes fail: a
request that goes on is answered in the third, and one that does not ends with the first node. -/
theorem fail_fast_cuts_off_refusing :
    (blank.computeMany refusing { rounds := 4, depth := 0 } true
        [NodeKey.mirror "x", .mirror "y"]).1 =
      .ok (.cons (.error refusal) (.cons (.error refusal) .nil)) ∧
    (blank.computeMany refusing { rounds := 4, depth := 0 } false
        [NodeKey.mirror "x", .mirror "y"]).1 = .error (.failFast (NodeKey.node "x") refusal) :=
  have hok : (blank.computeMany refusing { rounds := 4, depth := 0 } true
      [NodeKey.mirror "x", .mirror "y"]).1 =
        .ok (.cons (.error refusal) (.cons (.error refusal) .nil)) := rfl
  ⟨hok, ((Session.fail_fast_cuts_off (by simp [hok])).failFast _ _).mpr rfl⟩

end Script
end BuildAnalysis.Engine
