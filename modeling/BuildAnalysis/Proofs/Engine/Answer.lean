import BuildAnalysis.Proofs.Engine.Happening
import BuildAnalysis.Proofs.Engine.Demand

/-!
# The failures that a request answers

A request that does not go on after failures looks for them only when the task of a key has just
completed. A failure that is cached by then is never looked for: a request answers it like any other
value, and one that has ended with a failure leaves it behind for the next request to answer.
-/
namespace BuildAnalysis.Engine

variable {S : KeySpace}

/-- The failures among values, each with its key. -/
def Values.failures : {ks : List S.Key} → Values S ks → List (S.Key × Failure)
  | _, .nil => []
  | _, .cons (k := k) v vs => (S.failure? k v).toList.map (k, ·) ++ vs.failures

namespace Store

/-- The failure that is cached for a key. -/
def failure? (s : Store S) (k : S.Key) : Option Failure := (s.value? k).bind (S.failure? k)

variable {s t : Store S} {k : S.Key} {x : Failure}

theorem failure?_of_value? {v : S.Value k} (h : s.value? k = some v) :
    s.failure? k = S.failure? k v := by rw [failure?, h, Option.bind_some]

theorem contains_of_failure? (h : s.failure? k = some x) : s.contains k = true := by
  obtain ⟨v, hv, _⟩ := Option.bind_eq_some_iff.mp h
  exact contains_of_value? hv

theorem Within.failure?_eq (h : s.Within t) (hk : s.contains k = true) :
    t.failure? k = s.failure? k := by
  rw [failure?, failure?, h.value?_eq hk]

theorem mem_failures {ks : List S.Key} {vs : Values S ks} (h : s.values? ks = some vs) :
    (k, x) ∈ vs.failures ↔ k ∈ ks ∧ s.failure? k = some x := by
  induction ks with
  | nil =>
      cases vs
      simp [Values.failures]
  | cons l ls ih =>
      simp only [values?] at h
      split at h
      next v vs' hv hvs =>
        obtain rfl := Option.some.inj h
        have hfirst : (k, x) ∈ (S.failure? l v).toList.map (l, ·) ↔
            k = l ∧ s.failure? l = some x := by
          rw [failure?_of_value? hv]
          simp [and_comm, eq_comm]
        simp only [Values.failures, List.mem_append, hfirst, ih hvs, List.mem_cons]
        aesop
      next => cases h

end Store

theorem values?_of_collect {store : Store S} {ks : List S.Key} {vs : Values S ks}
    (h : collect store ks = .ok vs) : store.values? ks = some vs := by
  induction ks with
  | nil =>
      cases h
      rfl
  | cons k ks ih =>
      simp only [collect] at h
      cases hv : store.value? k with
      | none => simp [hv] at h
      | some v =>
          simp only [hv] at h
          cases hvs : collect store ks with
          | error e => simp [hvs] at h
          | ok vs' =>
              simp only [hvs] at h
              cases h
              simp [Store.values?, hv, ih hvs]

theorem collect_ne_failFast (store : Store S) (ks : List S.Key) (k : S.Key) (x : Failure) :
    collect store ks ≠ .error (.failFast k x) := by
  induction ks with
  | nil => simp [collect]
  | cons l ls ih =>
      simp only [collect]
      cases store.value? l with
      | none => simp
      | some v =>
          cases hls : collect store ls with
          | error e => simpa [hls] using ih
          | ok vs => simp

/-! ### Where cached failures come from -/

namespace Trial

structure Fails (e : Trial S) (k : S.Key) (x : Failure) : Prop where
  before : e.before.store.failure? k ≠ some x
  after : e.after.store.failure? k = some x

/-- The trial makes a key fail that it does not complete. -/
structure FailsAside (e : Trial S) (k : S.Key) (x : Failure) : Prop extends e.Fails k x where
  aside : e.key = k → ∀ v, e.outcome ≠ .done v

end Trial

/-- Of trials that run one after the other, a failure in the end was there in the beginning, or one
of them has made it. -/
theorem fails_trialsOf (compute : Computation S) (nest : Nest S) (ks : List S.Key) (s : Session S)
    {k : S.Key} {x : Failure}
    (h : (evaluateAll compute nest ks s).2.store.failure? k = some x) :
    s.store.failure? k = some x ∨ ∃ e ∈ trialsOf compute nest ks s, e.Fails k x := by
  induction ks generalizing s with
  | nil => exact .inl h
  | cons l ls ih =>
      rcases ih (trial compute nest l s).after h with hafter | ⟨e, he, hfails⟩
      · by_cases hbefore : s.store.failure? k = some x
        · exact .inl hbefore
        · exact .inr ⟨_, List.mem_cons_self, hbefore, hafter⟩
      · exact .inr ⟨e, List.mem_cons_of_mem _ he, hfails⟩

theorem value?_of_mem_trialsOf {compute : Computation S} {nest : Nest S} {ks : List S.Key}
    {s : Session S} {e : Trial S} (he : e ∈ trialsOf compute nest ks s) {v : S.Value e.key}
    (h : e.outcome = .done v) : e.after.store.value? e.key = some v := by
  induction ks generalizing s with
  | nil => cases he
  | cons k ks ih =>
      rcases List.mem_cons.mp he with rfl | he
      · exact (trial_ends compute nest k s).value? h
      · exact ih he

theorem failure?_of_settle {es : List (Evaluated S)} {c c' : Schedule S} {s t : Session S}
    (h : settle false es c s = (.ok c', t)) {k : S.Key} {v : S.Value k}
    (hk : ⟨k, .done v⟩ ∈ es) : S.failure? k v = none := by
  induction es generalizing c s with
  | nil => cases hk
  | cons e es ih =>
      obtain ⟨l, outcome⟩ := e
      cases outcome with
      | done w =>
          simp only [settle, Bool.false_eq_true, ite_false] at h
          cases hfailure : S.failure? l w with
          | some failure => simp [hfailure] at h
          | none =>
              simp only [hfailure] at h
              rcases List.mem_cons.mp hk with heq | hk
              · cases heq
                exact hfailure
              · exact ih h hk
      | notReady missing =>
          rcases List.mem_cons.mp hk with heq | hk
          · cases heq
          · exact ih h hk
      | cancelled => simp [settle] at h

/-- A round that goes on caches failures only aside. -/
theorem failsAside_of_settle {compute : Computation S} {nest : Nest S} {ks : List S.Key}
    {c c' : Schedule S} {s t : Session S}
    (h : settle false (evaluateAll compute nest ks s).1 c (evaluateAll compute nest ks s).2 =
      (.ok c', t)) {k : S.Key} {x : Failure} (hk : t.store.failure? k = some x) :
    s.store.failure? k = some x ∨ ∃ e ∈ trialsOf compute nest ks s, e.FailsAside k x := by
  have hstore : t.store = (evaluateAll compute nest ks s).2.store := by
    obtain ⟨log, hlog⟩ := settle_session false (evaluateAll compute nest ks s).1 c
      (evaluateAll compute nest ks s).2
    have ht := congrArg Prod.snd h
    rw [hlog] at ht
    exact (congrArg Session.store ht).symm
  rw [hstore] at hk
  refine (fails_trialsOf compute nest ks s hk).imp_right fun ⟨e, he, hfails⟩ => ⟨e, he, hfails, ?_⟩
  rintro rfl v hdone
  -- Had the trial completed the key, the round would have come upon the failure.
  have hmem : e.evaluated ∈ (evaluateAll compute nest ks s).1 := by
    rw [evaluateAll_fst]
    exact List.mem_map_of_mem he
  rw [Trial.evaluated, hdone] at hmem
  have hnone := failure?_of_settle h hmem
  rw [← Store.failure?_of_value? (value?_of_mem_trialsOf he hdone), hfails.after] at hnone
  cases hnone

/-- Rounds that come to an end well have cached failures only aside. -/
theorem failsAside_of_runRounds {compute : Computation S} {nest : Nest S} {rounds : Nat}
    {c : Schedule S} {s t : Session S}
    (h : runRounds compute nest false rounds c s = (.ok (), t)) {k : S.Key} {x : Failure}
    (hk : t.store.failure? k = some x) :
    s.store.failure? k = some x ∨
      ∃ e ∈ trialsWithin compute nest false rounds c s, e.FailsAside k x := by
  induction rounds, c, s using rounds_induction compute nest false with
  | out _ s =>
      obtain rfl : s = t := congrArg Prod.snd h
      exact .inl hk
  | ended _ _ s _ hc =>
      rw [runRounds_ended hc] at h
      obtain rfl : s = t := congrArg Prod.snd h
      exact .inl hk
  | failed _ _ _ _ _ _ _ hc hsettle =>
      rw [runRounds_go_error hc hsettle] at h
      cases h
  | next _ _ _ _ _ _ _ hc hsettle ih =>
      rw [runRounds_go hc hsettle] at h
      rw [trialsWithin_go hc hsettle]
      rcases ih h with hround | ⟨e, he, haside⟩
      · rcases failsAside_of_settle hsettle hround with hbefore | ⟨e, he, haside⟩
        · exact .inl hbefore
        · exact .inr ⟨e, List.mem_append_left _ he, haside⟩
      · exact .inr ⟨e, List.mem_append_right _ he, haside⟩

/-- A trial of a restartable task makes no key fail but the one that it completes. -/
theorem Trial.Of.not_failsAside {compute : Computation S} {e : Trial S} (h : e.Of compute)
    (hcompute : compute.Restartable) (k : S.Key) (x : Failure) : ¬ e.FailsAside k x := by
  intro haside
  rcases h.store hcompute with ⟨_, hstore⟩ | ⟨v, hdone, _⟩
  · exact haside.before (hstore ▸ haside.after)
  · have hcached := Store.contains_of_failure? haside.after
    rcases h.contains_after hcompute hcached with rfl | hbefore
    · exact haside.aside rfl _ hdone
    · refine haside.before ?_
      rw [← (h.sound hcompute).grows.store.failure?_eq hbefore, haside.after]

/-! ### Requests -/

theorem kept_trialsOf {compute : Computation S} {nest : Nest S} {told : List Suspension}
    (h : ∀ k, S.isInjected k = false → (compute k).Suspends told) (hnest : nest.Grows)
    {keepGoing : Bool} {c c' : Schedule S} {s t : Session S} {frontier : List S.Key}
    {result : Except (RequestError S) (Schedule S)} (hc : c.opening s = .go c' frontier)
    (hsettle : settle keepGoing (evaluateAll compute nest frontier (s.announce c' frontier)).1 c'
      (evaluateAll compute nest frontier (s.announce c' frontier)).2 = (result, t)) :
    ∀ e ∈ trialsOf compute nest frontier (s.announce c' frontier),
      s.store.contains e.key = false ∧ e.after.Grows t := by
  intro e he
  obtain ⟨-, hfrontier, hcomputed⟩ := Schedule.of_opening hc
  have hkey := (mem_trialsOf he).1
  rw [hfrontier] at hkey
  exact ⟨(Tracks.mem_pending_refresh.mp (List.mem_filter.mp hkey).1).2,
    (grows_trialsOf h hnest hcomputed _ e he).2.trans (settle_grows hsettle)⟩

theorem kept_trialsWithin {compute : Computation S} {nest : Nest S} {told : List Suspension}
    (h : ∀ k, S.isInjected k = false → (compute k).Suspends told) (hnest : nest.Grows)
    (keepGoing : Bool) (rounds : Nat) (c : Schedule S) (s : Session S) :
    ∀ e ∈ trialsWithin compute nest keepGoing rounds c s, s.store.contains e.key = false ∧
      e.after.Grows (runRounds compute nest keepGoing rounds c s).2 := by
  induction rounds, c, s using rounds_induction compute nest keepGoing with
  | out => simp [trialsWithin]
  | ended _ _ _ _ hc => simp [trialsWithin_ended hc]
  | failed _ _ _ _ _ _ _ hc hsettle =>
      rw [trialsWithin_go_error hc hsettle, runRounds_go_error hc hsettle]
      exact kept_trialsOf h hnest hc hsettle
  | next rounds _ _ _ _ c'' t hc hsettle ih =>
      rw [trialsWithin_go hc hsettle, runRounds_go hc hsettle]
      refine List.forall_mem_append.mpr ⟨fun e he => ?_, fun e he => ?_⟩
      · obtain ⟨hkey, hgrows⟩ := kept_trialsOf h hnest hc hsettle e he
        exact ⟨hkey, hgrows.trans (runRounds_grows h hnest keepGoing rounds c'' t)⟩
      · obtain ⟨hkey, hgrows⟩ := ih e he
        exact ⟨(settled_round_grows h hnest hc hsettle).contains_eq_false hkey, hgrows⟩

namespace Session

variable {compute : Computation S} {bounds : Bounds} {ks : List S.Key} {s t : Session S}
  {k : S.Key} {x : Failure}

theorem run_grows (hcompute : compute.SuspendsAtRequests) (bounds : Bounds) (keepGoing : Bool)
    (ks : List S.Key) (s : Session S) : s.Grows (s.run compute bounds keepGoing ks).2 :=
  runRounds_grows hcompute (nestWithin_grows hcompute bounds) keepGoing bounds.rounds _ s

theorem kept_trials (hcompute : compute.SuspendsAtRequests) (bounds : Bounds) (keepGoing : Bool)
    (ks : List S.Key) (s : Session S) :
    ∀ e ∈ s.trials compute bounds keepGoing ks, s.store.contains e.key = false ∧
      e.after.Grows (s.run compute bounds keepGoing ks).2 :=
  kept_trialsWithin hcompute (nestWithin_grows hcompute bounds) keepGoing bounds.rounds _ s

/-- A request that is answered has come to an end well, and answers what is cached then. -/
theorem of_computeMany_ok {keepGoing : Bool} {vs : Values S ks}
    (h : s.computeMany compute bounds keepGoing ks = (.ok vs, t)) :
    s.run compute bounds keepGoing ks = (.ok (), t) ∧ t.store.values? ks = some vs := by
  rw [computeMany_eq] at h
  split at h
  next => cases h
  next u hu =>
    obtain ⟨hcollect, rfl⟩ := Prod.mk.inj h
    exact ⟨hu, values?_of_collect hcollect⟩

theorem run_of_failFast {keepGoing : Bool}
    (h : s.computeMany compute bounds keepGoing ks = (.error (.failFast k x), t)) :
    s.run compute bounds keepGoing ks = (.error (.failFast k x), t) := by
  rw [computeMany_eq] at h
  split at h
  next e u hu =>
    obtain ⟨he, rfl⟩ := Prod.mk.inj h
    rw [hu, Except.error.inj he]
  next u hu => exact absurd (Prod.mk.inj h).1 (collect_ne_failFast u.store ks k x)

/-- The failures that a request answers are those that were cached before, and those that one of its
trials has made aside. -/
theorem mem_failures_iff (hcompute : compute.SuspendsAtRequests) {vs : Values S ks}
    (h : s.computeMany compute bounds false ks = (.ok vs, t)) :
    (k, x) ∈ vs.failures ↔ k ∈ ks ∧ (s.store.failure? k = some x ∨
      ∃ e ∈ s.trials compute bounds false ks, e.FailsAside k x) := by
  obtain ⟨hrun, hvs⟩ := of_computeMany_ok h
  have hgrows := run_grows hcompute bounds false ks s
  have hkept := kept_trials hcompute bounds false ks s
  rw [hrun] at hgrows hkept
  have hfinal : ∀ {u : Store S}, u.Within t.store → u.failure? k = some x →
      t.store.failure? k = some x := fun hu hk => by
    rw [hu.failure?_eq (Store.contains_of_failure? hk), hk]
  rw [Store.mem_failures hvs]
  refine and_congr_right fun _ => ⟨failsAside_of_runRounds hrun, ?_⟩
  rintro (hbefore | ⟨e, he, haside⟩)
  · exact hfinal hgrows.store hbefore
  · exact hfinal (hkept e he).2.store haside.after

theorem mem_failures_iff_cached {family : Computation S} (hcompute : compute.Restartable)
    (hfamily : family.Cancels compute) {vs : Values S ks}
    (h : s.computeMany family bounds false ks = (.ok vs, t)) :
    (k, x) ∈ vs.failures ↔ k ∈ ks ∧ s.store.failure? k = some x := by
  rw [mem_failures_iff (hcompute.suspends hfamily) h]
  refine and_congr_right fun _ => or_iff_left ?_
  rintro ⟨e, he, haside⟩
  exact (fresh_trials hcompute hfamily bounds false ks s e he).1.not_failsAside hcompute k x haside

/-- A request that ends with the failure of a key began without a value for it and leaves the
failure cached. -/
theorem cached_of_failFast (hcompute : compute.SuspendsAtRequests) {keepGoing : Bool}
    (h : s.computeMany compute bounds keepGoing ks = (.error (.failFast k x), t)) :
    s.store.contains k = false ∧ t.store.failure? k = some x := by
  have hrun := run_of_failFast h
  have hexplained := explained_run s hcompute bounds keepGoing ks
  rw [hrun] at hexplained
  obtain ⟨-, v, ⟨e, he, hevaluated⟩, hv, hx⟩ := hexplained.failFast k x rfl
  have hkey : e.key = k := congrArg Evaluated.key hevaluated
  have hkept := kept_trials hcompute bounds keepGoing ks s e he
  exact ⟨hkey ▸ hkept.1, (Store.failure?_of_value? hv).trans hx⟩

/-- A failure that is cached is answered by a request for its key, at once. -/
theorem computeMany_of_failure? (compute : Computation S) (bounds : Bounds) (keepGoing : Bool)
    (h : s.store.failure? k = some x) :
    ∃ v, s.computeMany compute bounds keepGoing [k] = (.ok (.cons v .nil), s) ∧
      S.failure? k v = some x := by
  obtain ⟨v, hv, hx⟩ := Option.bind_eq_some_iff.mp h
  refine ⟨v, ?_, hx⟩
  have hschedule : (s.schedule [k]).pending = [] := by
    simp [schedule, Store.contains, hv, Listing.distinct, Listing.addAll]
  have hrun : s.run compute bounds keepGoing [k] = (.ok (), s) := by
    rw [run]
    cases bounds.rounds with
    | zero => simp [runRounds, hschedule]
    | succ rounds => simp [runRounds, hschedule]
  rw [computeMany_eq, hrun]
  simp [collect, hv]

structure AnswersCached (compute : Computation S) (s : Session S) : Prop where
  /-- The failures among the values of a request are those that were cached before, and those that
  one of its trials has made aside. -/
  answered : ∀ bounds ks vs t, s.computeMany compute bounds false ks = (.ok vs, t) → ∀ k x,
    (k, x) ∈ vs.failures ↔ k ∈ ks ∧ (s.store.failure? k = some x ∨
      ∃ e ∈ s.trials compute bounds false ks, e.FailsAside k x)
  /-- A request ends with a failure once: from then on no request ends with a failure of that key,
  and a request for the key is answered with the failure. -/
  failed : ∀ bounds ks k x t, s.computeMany compute bounds false ks = (.error (.failFast k x), t) →
    s.store.contains k = false ∧ ∀ (again : Session S) (bounds : Bounds), again.store = t.store →
      (∃ v, again.computeMany compute bounds false [k] = (.ok (.cons v .nil), again) ∧
        S.failure? k v = some x) ∧
      ∀ ls y, (again.computeMany compute bounds false ls).1 ≠ .error (.failFast k y)

theorem answersCached (hcompute : compute.SuspendsAtRequests) (s : Session S) :
    s.AnswersCached compute where
  answered _ _ _ _ h _ _ := mem_failures_iff hcompute h
  failed bounds ks k x t h := by
    obtain ⟨huncached, hfailure⟩ := cached_of_failFast hcompute h
    refine ⟨huncached, fun again bounds hagain => ?_⟩
    rw [← hagain] at hfailure
    refine ⟨computeMany_of_failure? compute bounds false hfailure, fun ls y hls => ?_⟩
    have hfresh := (cached_of_failFast hcompute (Prod.ext hls rfl)).1
    rw [Store.contains_of_failure? hfailure] at hfresh
    cases hfresh

end Session

end BuildAnalysis.Engine
