import BuildAnalysis.Engine.Workers
import BuildAnalysis.Proofs.Engine.Suspension

/-!
# The trials of a request

A request runs the tasks of keys, some of them several times. Each such run is a trial: it ends with
a value that it stores, with the keys that it misses, or cancelled. The trials of a request with a
single worker are listed in the order in which they run; those that a task runs in a transaction of
its own are not among them.
-/
namespace BuildAnalysis.Engine

variable {S : KeySpace}

namespace Trial

def last? (k : S.Key) (ran : List (Trial S)) : Option (Trial S) :=
  ran.reverse.find? fun e => e.key = k

theorem last?_concat (k : S.Key) (ran : List (Trial S)) (e : Trial S) :
    last? k (ran ++ [e]) = if e.key = k then some e else last? k ran := by
  simp only [last?, List.reverse_append, List.reverse_cons, List.reverse_nil, List.nil_append,
    List.cons_append, List.find?_cons]
  split <;> simp_all

theorem last?_concat_self (ran : List (Trial S)) (e : Trial S) :
    last? e.key (ran ++ [e]) = some e := by rw [last?_concat, if_pos rfl]

end Trial

def trial (compute : Computation S) (nest : Nest S) (k : S.Key) (s : Session S) : Trial S :=
  { key := k
    before := s
    outcome := (evaluate compute nest k s).1
    requested := ((compute k).run nest { session := s }).2.deps
    after := (evaluate compute nest k s).2 }

/-- Runs the tasks of keys one after the other. -/
def trialsOf (compute : Computation S) (nest : Nest S) : List S.Key → Session S → List (Trial S)
  | [], _ => []
  | k :: ks, s =>
    let first := trial compute nest k s
    first :: trialsOf compute nest ks first.after

theorem evaluateAll_fst (compute : Computation S) (nest : Nest S) (ks : List S.Key)
    (s : Session S) :
    (evaluateAll compute nest ks s).1 = (trialsOf compute nest ks s).map Trial.evaluated := by
  induction ks generalizing s with
  | nil => rfl
  | cons k ks ih => exact congrArg (_ :: ·) (ih _)

theorem mem_trialsOf {compute : Computation S} {nest : Nest S} {ks : List S.Key} {s : Session S}
    {e : Trial S} (he : e ∈ trialsOf compute nest ks s) :
    e.key ∈ ks ∧ e = trial compute nest e.key e.before := by
  induction ks generalizing s with
  | nil => cases he
  | cons k ks ih =>
      rcases List.mem_cons.mp he with rfl | he
      · exact ⟨List.mem_cons_self, rfl⟩
      · exact (ih he).imp_left (List.mem_cons_of_mem _)

/-- What a round runs are pending keys that are computed. -/
theorem Schedule.of_opening {c c' : Schedule S} {s : Session S} {frontier : List S.Key}
    (h : c.opening s = .go c' frontier) :
    c' = c.refresh s.store ∧ frontier = (c.refresh s.store).frontier s.store ∧
      ∀ k ∈ frontier, S.isInjected k = false := by
  simp only [Schedule.opening] at h
  repeat' split at h
  all_goals cases h
  next hinjected => exact ⟨rfl, rfl, by simpa using List.find?_eq_none.mp hinjected⟩

/-- The ways in which a round can end the request before it runs anything. -/
theorem Schedule.of_opening_ended {c : Schedule S} {s : Session S}
    {result : Except (RequestError S) Unit} (h : c.opening s = .ended result) :
    result = .ok () ∨ result = .error .cancelled ∨ (∃ ks, result = .error (.cycle ks)) ∨
      ∃ k, result = .error (.missingInjected k) := by
  simp only [Schedule.opening] at h
  repeat' split at h
  all_goals cases h
  · exact .inl rfl
  · exact .inr (.inl rfl)
  · exact .inl rfl
  · exact .inr (.inr (.inl ⟨_, rfl⟩))
  · exact .inr (.inr (.inr ⟨_, rfl⟩))

theorem runRounds_succ (compute : Computation S) (nest : Nest S) (keepGoing : Bool) (rounds : Nat)
    (c : Schedule S) (s : Session S) :
    runRounds compute nest keepGoing (rounds + 1) c s =
      match c.opening s with
      | .ended result => (result, s)
      | .go c frontier =>
        let evaluated := evaluateAll compute nest frontier (s.announce c frontier)
        match settle keepGoing evaluated.1 c evaluated.2 with
        | (.error e, s) => (.error e, s)
        | (.ok c, s) => runRounds compute nest keepGoing rounds c s := by
  simp only [runRounds, Schedule.opening]
  by_cases hpending : c.pending.isEmpty = true
  · simp only [if_pos hpending]
  by_cases hcancelled : s.isCancelled = true
  · simp only [if_neg hpending, if_pos hcancelled]
  by_cases hdrained : (c.refresh s.store).pending.isEmpty = true
  · simp only [if_neg hpending, if_neg hcancelled, if_pos hdrained]
  by_cases hstuck : ((c.refresh s.store).frontier s.store).isEmpty = true
  · simp only [if_neg hpending, if_neg hcancelled, if_neg hdrained, if_pos hstuck]
  simp only [if_neg hpending, if_neg hcancelled, if_neg hdrained, if_neg hstuck]
  cases ((c.refresh s.store).frontier s.store).find? S.isInjected <;> rfl

theorem runRounds_ended {compute : Computation S} {nest : Nest S} {keepGoing : Bool}
    {c : Schedule S} {s : Session S} {result : Except (RequestError S) Unit}
    (h : c.opening s = .ended result) (rounds : Nat) :
    runRounds compute nest keepGoing (rounds + 1) c s = (result, s) := by
  rw [runRounds_succ, h]

theorem runRounds_go {compute : Computation S} {nest : Nest S} {keepGoing : Bool}
    {c c' c'' : Schedule S} {s t : Session S} {frontier : List S.Key}
    (h : c.opening s = .go c' frontier)
    (hsettle : settle keepGoing (evaluateAll compute nest frontier (s.announce c' frontier)).1 c'
      (evaluateAll compute nest frontier (s.announce c' frontier)).2 = (.ok c'', t))
    (rounds : Nat) : runRounds compute nest keepGoing (rounds + 1) c s =
      runRounds compute nest keepGoing rounds c'' t := by
  rw [runRounds_succ, h]
  simp only [hsettle]

def trialsWithin (compute : Computation S) (nest : Nest S) (keepGoing : Bool) :
    (rounds : Nat) → Schedule S → Session S → List (Trial S)
  | 0, _, _ => []
  | rounds + 1, c, s =>
    match c.opening s with
    | .ended _ => []
    | .go c frontier =>
      let evaluated := evaluateAll compute nest frontier (s.announce c frontier)
      trialsOf compute nest frontier (s.announce c frontier) ++
        match settle keepGoing evaluated.1 c evaluated.2 with
        | (.error _, _) => []
        | (.ok c, s) => trialsWithin compute nest keepGoing rounds c s

theorem runRounds_go_error {compute : Computation S} {nest : Nest S} {keepGoing : Bool}
    {c c' : Schedule S} {s t : Session S} {frontier : List S.Key} {e : RequestError S}
    (h : c.opening s = .go c' frontier)
    (hsettle : settle keepGoing (evaluateAll compute nest frontier (s.announce c' frontier)).1 c'
      (evaluateAll compute nest frontier (s.announce c' frontier)).2 = (.error e, t))
    (rounds : Nat) : runRounds compute nest keepGoing (rounds + 1) c s = (.error e, t) := by
  rw [runRounds_succ, h]
  simp only [hsettle]

theorem trialsWithin_ended {compute : Computation S} {nest : Nest S} {keepGoing : Bool}
    {c : Schedule S} {s : Session S} {result : Except (RequestError S) Unit}
    (h : c.opening s = .ended result) (rounds : Nat) :
    trialsWithin compute nest keepGoing (rounds + 1) c s = [] := by
  rw [trialsWithin, h]

theorem trialsWithin_go {compute : Computation S} {nest : Nest S} {keepGoing : Bool}
    {c c' c'' : Schedule S} {s t : Session S} {frontier : List S.Key}
    (h : c.opening s = .go c' frontier)
    (hsettle : settle keepGoing (evaluateAll compute nest frontier (s.announce c' frontier)).1 c'
      (evaluateAll compute nest frontier (s.announce c' frontier)).2 = (.ok c'', t))
    (rounds : Nat) : trialsWithin compute nest keepGoing (rounds + 1) c s =
      trialsOf compute nest frontier (s.announce c' frontier) ++
        trialsWithin compute nest keepGoing rounds c'' t := by
  rw [trialsWithin, h]
  simp only [hsettle]

theorem trialsWithin_go_error {compute : Computation S} {nest : Nest S} {keepGoing : Bool}
    {c c' : Schedule S} {s t : Session S} {frontier : List S.Key} {e : RequestError S}
    (h : c.opening s = .go c' frontier)
    (hsettle : settle keepGoing (evaluateAll compute nest frontier (s.announce c' frontier)).1 c'
      (evaluateAll compute nest frontier (s.announce c' frontier)).2 = (.error e, t))
    (rounds : Nat) : trialsWithin compute nest keepGoing (rounds + 1) c s =
      trialsOf compute nest frontier (s.announce c' frontier) := by
  rw [trialsWithin, h]
  simp only [hsettle, List.append_nil]

/-- Induction on rounds by what the first of them does: it ends the request before or after its
trials, or it leaves a schedule to the others. -/
@[elab_as_elim]
theorem rounds_induction (compute : Computation S) (nest : Nest S) (keepGoing : Bool)
    {motive : Nat → Schedule S → Session S → Prop} (out : ∀ c s, motive 0 c s)
    (ended : ∀ rounds c s result, c.opening s = .ended result → motive (rounds + 1) c s)
    (failed : ∀ rounds c s c' frontier e t, c.opening s = .go c' frontier →
      settle keepGoing (evaluateAll compute nest frontier (s.announce c' frontier)).1 c'
        (evaluateAll compute nest frontier (s.announce c' frontier)).2 = (.error e, t) →
      motive (rounds + 1) c s)
    (next : ∀ rounds c s c' frontier c'' t, c.opening s = .go c' frontier →
      settle keepGoing (evaluateAll compute nest frontier (s.announce c' frontier)).1 c'
        (evaluateAll compute nest frontier (s.announce c' frontier)).2 = (.ok c'', t) →
      motive rounds c'' t → motive (rounds + 1) c s)
    (rounds : Nat) (c : Schedule S) (s : Session S) : motive rounds c s := by
  induction rounds generalizing c s with
  | zero => exact out c s
  | succ rounds ih =>
      cases hc : c.opening s with
      | ended result => exact ended rounds c s result hc
      | go c' frontier =>
          cases hsettle : settle keepGoing
            (evaluateAll compute nest frontier (s.announce c' frontier)).1 c'
            (evaluateAll compute nest frontier (s.announce c' frontier)).2 with
          | mk result t =>
          cases result with
          | error e => exact failed rounds c s c' frontier e t hc hsettle
          | ok c'' => exact next rounds c s c' frontier c'' t hc hsettle (ih c'' t)

/-! ### Growth -/

namespace Trial

/-- How a trial ends whose task ran to a result. -/
def Ends (e : Trial S) (result : Except Suspension (S.Value e.key)) (r : Running S) : Prop :=
  e.requested = r.deps ∧
    match result with
    | .ok v =>
      e.outcome = .done (r.session.store.insertComputed e.key v r.deps).2 ∧
        e.after = { r.session with store := (r.session.store.insertComputed e.key v r.deps).1 }
    | .error .notReady => e.outcome = .notReady r.missing ∧ e.after = r.session
    | .error .cancelled => e.outcome = .cancelled ∧ e.after = r.session

/-- What completes is stored. -/
theorem Ends.value? {e : Trial S} {result : Except Suspension (S.Value e.key)} {r : Running S}
    (h : e.Ends result r) {v : S.Value e.key} (hv : e.outcome = .done v) :
    e.after.store.value? e.key = some v := by
  obtain ⟨_, hends⟩ := h
  cases result with
  | ok w =>
      obtain rfl := Outcome.done.inj (hends.1.symm.trans hv)
      rw [hends.2]
      exact Store.value?_insertComputed_self w r.deps
  | error x => cases x <;> exact absurd (hends.1.symm.trans hv) (by simp)

structure Sound (e : Trial S) : Prop where
  grows : e.before.Grows e.after
  done : ∀ v, e.outcome = .done v → e.after.store.value? e.key = some v
  missing : ∀ ms, e.outcome = .notReady ms →
    ms ≠ [] ∧ ms.Nodup ∧ ms ⊆ e.requested ∧ ∀ m ∈ ms, e.before.store.contains m = false
  cancelled : e.outcome = .cancelled → e.after.isCancelled = true

/-- The task of the trial has followed on what it began with, and if it has suspended then in one of
the given ways or as it was told to. -/
def Fair (told : List Suspension) (e : Trial S) : Prop :=
  ∃ result r, e.Ends result r ∧ Running.Follows { session := e.before } r ∧
    ∀ x, result = .error x → x ∈ told ∨ r.Tells x

namespace Fair

variable {told : List Suspension} {e : Trial S}

theorem grows (h : e.Fair told) : e.before.Grows e.after := by
  obtain ⟨result, r, ⟨_, hends⟩, hfollows, _⟩ := h
  cases result with
  | ok v =>
      rw [hends.2]
      exact hfollows.grows.trans ⟨Store.within_insertComputed v r.deps, rfl, id⟩
  | error x =>
      cases x with
      | notReady => exact hends.2 ▸ hfollows.grows
      | cancelled => exact hends.2 ▸ hfollows.grows

theorem value? (h : e.Fair told) {v : S.Value e.key} (hv : e.outcome = .done v) :
    e.after.store.value? e.key = some v := by
  obtain ⟨_, _, hends, _, _⟩ := h
  exact hends.value? hv

/-- What is not ready misses keys that it requested and that had no value. -/
theorem missing (h : e.Fair told) (htold : .notReady ∉ told) {ms : List S.Key}
    (hms : e.outcome = .notReady ms) :
    ms ≠ [] ∧ ms.Nodup ∧ ms ⊆ e.requested ∧ ∀ m ∈ ms, e.before.store.contains m = false := by
  obtain ⟨result, r, ⟨hrequested, hends⟩, hfollows, htells⟩ := h
  cases result with
  | ok v => exact absurd (hends.1.symm.trans hms) (by simp)
  | error x =>
      cases x with
      | notReady =>
          obtain rfl := Outcome.notReady.inj (hends.1.symm.trans hms)
          have hsub : r.missing ⊆ r.deps := hfollows.requested (List.Subset.refl _)
          have hnonempty : r.missing ≠ [] := (htells .notReady rfl).resolve_left htold
          exact ⟨hnonempty, hfollows.nodup List.nodup_nil, hrequested ▸ hsub,
            fun m hm => (hfollows.fresh m hm).resolve_left (by simp)⟩
      | cancelled => exact absurd (hends.1.symm.trans hms) (by simp)

theorem cancelled (h : e.Fair told) (htold : .cancelled ∉ told) (hc : e.outcome = .cancelled) :
    e.after.isCancelled = true := by
  obtain ⟨result, r, ⟨_, hends⟩, _, htells⟩ := h
  cases result with
  | ok v => exact absurd (hends.1.symm.trans hc) (by simp)
  | error x =>
      cases x with
      | notReady => exact absurd (hends.1.symm.trans hc) (by simp)
      | cancelled =>
          rw [hends.2]
          exact (htells .cancelled rfl).resolve_left htold

theorem sound (h : e.Fair []) : e.Sound where
  grows := h.grows
  done _ hv := h.value? hv
  missing _ hms := h.missing List.not_mem_nil hms
  cancelled hc := h.cancelled List.not_mem_nil hc

end Fair

end Trial

section
variable {compute : Computation S} {nest : Nest S} {told : List Suspension}
  (h : ∀ k, S.isInjected k = false → (compute k).Suspends told) (hnest : nest.Grows)

theorem trial_ends (compute : Computation S) (nest : Nest S) (k : S.Key) (s : Session S) :
    (trial compute nest k s).Ends ((compute k).run nest { session := s }).1
      ((compute k).run nest { session := s }).2 := by
  refine ⟨rfl, ?_⟩
  generalize hr : (compute k).run nest { session := s } = ran
  obtain ⟨result, r⟩ := ran
  simp only [trial, evaluate, hr]
  cases result with
  | ok v => exact ⟨rfl, rfl⟩
  | error e => cases e <;> exact ⟨rfl, rfl⟩

include h hnest in
theorem fair_trial {k : S.Key} (hk : S.isInjected k = false) (s : Session S) :
    (trial compute nest k s).Fair told := by
  refine ⟨_, _, trial_ends compute nest k s, (h k hk).run_follows hnest _, fun x hx => ?_⟩
  by_cases htold : x ∈ told
  · exact .inl htold
  · exact .inr ((h k hk).run_tells hnest (fun hmem => absurd hmem htold) hx)

include h hnest in
theorem grows_trial {k : S.Key} (hk : S.isInjected k = false) (s : Session S) :
    s.Grows (trial compute nest k s).after := (fair_trial h hnest hk s).grows

include h hnest in
theorem evaluateAll_grows {ks : List S.Key} (hks : ∀ k ∈ ks, S.isInjected k = false)
    (s : Session S) : s.Grows (evaluateAll compute nest ks s).2 := by
  induction ks generalizing s with
  | nil => exact .refl s
  | cons k ks ih =>
      have hfirst := grows_trial h hnest (hks k List.mem_cons_self) s
      exact hfirst.trans (ih (fun l hl => hks l (List.mem_cons_of_mem _ hl)) _)

include h hnest in
theorem grows_trialsOf {ks : List S.Key} (hks : ∀ k ∈ ks, S.isInjected k = false)
    (s : Session S) : ∀ e ∈ trialsOf compute nest ks s,
      s.Grows e.before ∧ e.after.Grows (evaluateAll compute nest ks s).2 := by
  induction ks generalizing s with
  | nil => simp [trialsOf]
  | cons k ks ih =>
      have hfirst := grows_trial h hnest (hks k List.mem_cons_self) s
      have hrest : ∀ l ∈ ks, S.isInjected l = false :=
        fun l hl => hks l (List.mem_cons_of_mem _ hl)
      refine List.forall_mem_cons.mpr
        ⟨⟨.refl s, evaluateAll_grows h hnest hrest _⟩, fun e he => ?_⟩
      obtain ⟨hbefore, hafter⟩ := ih hrest _ e he
      exact ⟨hfirst.trans hbefore, hafter⟩

theorem settle_session (keepGoing : Bool) (es : List (Evaluated S)) (c : Schedule S)
    (s : Session S) : ∃ log, (settle keepGoing es c s).2 = { s with log := log } := by
  induction es generalizing c s with
  | nil => exact ⟨s.log, rfl⟩
  | cons e es ih =>
      obtain ⟨k, outcome⟩ := e
      cases outcome with
      | done value =>
          simp only [settle]
          split
          next => exact ⟨s.log, rfl⟩
          next => exact ih _ _
      | notReady missing =>
          obtain ⟨log, hlog⟩ := ih (c.suspend k missing) (s.logAt .debug
            s!"{S.keyText k} is not ready, restarting after {missing.length} keys")
          exact ⟨log, hlog⟩
      | cancelled => exact ⟨s.log, rfl⟩

theorem settle_grows {keepGoing : Bool} {es : List (Evaluated S)} {c : Schedule S}
    {s t : Session S} {result : Except (RequestError S) (Schedule S)}
    (hsettle : settle keepGoing es c s = (result, t)) : s.Grows t := by
  obtain ⟨log, hlog⟩ := settle_session keepGoing es c s
  obtain rfl : t = { s with log := log } := by rw [← hlog, hsettle]
  exact .of_eq rfl rfl rfl

include h hnest in
theorem round_grows {c c' : Schedule S} {s : Session S} {frontier : List S.Key}
    (hc : c.opening s = .go c' frontier) :
    s.Grows (evaluateAll compute nest frontier (s.announce c' frontier)).2 := by
  have hannounced : s.Grows (s.announce c' frontier) := s.grows_log _
  exact hannounced.trans (evaluateAll_grows h hnest (Schedule.of_opening hc).2.2 _)

include h hnest in
theorem settled_round_grows {keepGoing : Bool} {c c' : Schedule S} {s t : Session S}
    {frontier : List S.Key} {result : Except (RequestError S) (Schedule S)}
    (hc : c.opening s = .go c' frontier)
    (hsettle : settle keepGoing (evaluateAll compute nest frontier (s.announce c' frontier)).1 c'
      (evaluateAll compute nest frontier (s.announce c' frontier)).2 = (result, t)) :
    s.Grows t :=
  (round_grows h hnest hc).trans (settle_grows hsettle)

include h hnest in
theorem runRounds_grows (keepGoing : Bool) (rounds : Nat) (c : Schedule S) (s : Session S) :
    s.Grows (runRounds compute nest keepGoing rounds c s).2 := by
  induction rounds, c, s using rounds_induction compute nest keepGoing with
  | out c s => exact .refl s
  | ended _ _ s _ hc =>
      rw [runRounds_ended hc]
      exact .refl s
  | failed _ _ _ _ _ _ _ hc hsettle =>
      rw [runRounds_go_error hc hsettle]
      exact settled_round_grows h hnest hc hsettle
  | next _ _ _ _ _ _ _ hc hsettle ih =>
      rw [runRounds_go hc hsettle]
      exact (settled_round_grows h hnest hc hsettle).trans ih

include h in
theorem computeWithin_grows (rounds depth : Nat) (keepGoing : Bool) (ks : List S.Key)
    (s : Session S) : s.Grows (computeWithin compute rounds depth keepGoing ks s).2 := by
  induction depth generalizing keepGoing ks s with
  | zero => exact .refl s
  | succ depth ih =>
      have hnest : Nest.Grows fun k s => s.nest fun s =>
          let served := computeWithin compute rounds depth true [k] s
          (served.1.map Values.single, served.2) :=
        fun k s => s.nest_grows fun s => ih true [k] s
      have hrun := fun c => runRounds_grows h hnest keepGoing rounds c s
      simp only [computeWithin]
      split
      next e t ht => exact congrArg Prod.snd ht ▸ hrun _
      next t ht => exact congrArg Prod.snd ht ▸ hrun _

include h in
theorem nestWithin_grows (bounds : Bounds) : (nestWithin compute bounds).Grows :=
  fun k s => s.nest_grows fun s => computeWithin_grows h bounds.rounds bounds.depth true [k] s

end

end BuildAnalysis.Engine
