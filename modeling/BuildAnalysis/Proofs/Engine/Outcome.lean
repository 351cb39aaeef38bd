import BuildAnalysis.Engine.Script
import BuildAnalysis.Proofs.Engine.Cycle
import BuildAnalysis.Proofs.Engine.SingleWorker

/-!
# What the outcome of a request says

Each way in which a request ends says something about its trials and about the store that it leaves.
The rounds keep track of the pending keys: each of them is a root or was requested, no root without
a value is forgotten, and a key that waits does so for keys that its last trial requested and that
are pending or have a value. So keys that wait for each other are what an empty frontier means. How
many workers run a round, and in which order, makes no difference to that.
-/
namespace BuildAnalysis.Engine

variable {S : KeySpace}

/-- The last trial of a key requested another. -/
def Awaits (ran : List (Trial S)) (k l : S.Key) : Prop :=
  ∃ e, Trial.last? k ran = some e ∧ l ∈ e.requested

/-- What a result says about the trials that were run for some roots and the session that they left.
Running out of rounds says nothing: such a request is still under way. -/
structure Explained (keepGoing : Bool) (roots : List S.Key) (ran : List (Trial S)) (t : Session S)
    (result : Except (RequestError S) Unit) : Prop where
  ok : result = .ok () → ∀ k ∈ roots, t.store.contains k = true
  cycle : ∀ ks, result = .error (.cycle ks) →
    Cycle.Closed (Awaits ran) ks ∧ ∀ k ∈ ks, t.store.contains k = false
  missingInjected : ∀ k, result = .error (.missingInjected k) →
    S.isInjected k = true ∧ t.store.contains k = false ∧ (k ∈ roots ∨ ∃ e ∈ ran, k ∈ e.requested)
  failFast : ∀ k failure, result = .error (.failFast k failure) →
    keepGoing = false ∧ ∃ v, (∃ e ∈ ran, e.evaluated = ⟨k, .done v⟩) ∧
      t.store.value? k = some v ∧ S.failure? k v = some failure
  cancelled : result = .error .cancelled → t.isCancelled = true

namespace Explained

variable {keepGoing : Bool} {roots : List S.Key} {ran : List (Trial S)} {t : Session S}

theorem of_ok (h : ∀ k ∈ roots, t.store.contains k = true) :
    Explained keepGoing roots ran t (.ok ()) := ⟨fun _ => h, by simp, by simp, by simp, by simp⟩

theorem of_cycle {ks : List S.Key} (closed : Cycle.Closed (Awaits ran) ks)
    (h : ∀ k ∈ ks, t.store.contains k = false) :
    Explained keepGoing roots ran t (.error (.cycle ks)) := by
  refine ⟨by simp, fun ls hls => ?_, by simp, by simp, by simp⟩
  cases hls
  exact ⟨closed, h⟩

theorem of_missingInjected {k : S.Key} (injected : S.isInjected k = true)
    (missing : t.store.contains k = false) (h : k ∈ roots ∨ ∃ e ∈ ran, k ∈ e.requested) :
    Explained keepGoing roots ran t (.error (.missingInjected k)) := by
  refine ⟨by simp, by simp, fun l hl => ?_, by simp, by simp⟩
  cases hl
  exact ⟨injected, missing, h⟩

theorem of_failFast {k : S.Key} {v : S.Value k} {failure : Failure}
    (computed : ∃ e ∈ ran, e.evaluated = ⟨k, .done v⟩) (cached : t.store.value? k = some v)
    (h : S.failure? k v = some failure) :
    Explained false roots ran t (.error (.failFast k failure)) := by
  refine ⟨by simp, by simp, by simp, fun l failure' hl => ?_, by simp⟩
  cases hl
  exact ⟨rfl, v, computed, cached, h⟩

theorem of_cancelled (h : t.isCancelled = true) :
    Explained keepGoing roots ran t (.error .cancelled) :=
  ⟨by simp, by simp, by simp, by simp, fun _ => h⟩

theorem of_exhausted : Explained keepGoing roots ran t (.error .exhausted) :=
  ⟨by simp, by simp, by simp, by simp, by simp⟩

end Explained

structure Tracks (roots : List S.Key) (ran : List (Trial S)) (c : Schedule S) (store : Store S) :
    Prop where
  covered : ∀ k ∈ roots, k ∈ c.pending ∨ store.contains k = true
  reached : ∀ k ∈ c.pending, k ∈ roots ∨ ∃ e ∈ ran, k ∈ e.requested
  awaited : ∀ k ms, Listing.find? k c.waiting = some ms → ∀ m ∈ ms,
    Awaits ran k m ∧ (m ∈ c.pending ∨ store.contains m = true)

namespace Tracks

variable {roots : List S.Key} {ran : List (Trial S)} {c : Schedule S} {store : Store S}

theorem start (roots : List S.Key) (store : Store S) :
    Tracks roots [] { pending := Listing.distinct (roots.filter fun k => !store.contains k) }
      store where
  covered k hk := by
    by_cases hcached : store.contains k = true
    · exact .inr hcached
    · exact .inl (Listing.mem_distinct.mpr (List.mem_filter.mpr ⟨hk, by simpa using hcached⟩))
  reached k hk := .inl (List.mem_filter.mp (Listing.mem_distinct.mp hk)).1
  awaited k ms hms := by cases hms

theorem grows {store' : Store S} (h : Tracks roots ran c store) (hstore : store.Within store') :
    Tracks roots ran c store' where
  covered k hk := (h.covered k hk).imp_right hstore.contains
  reached := h.reached
  awaited k ms hms m hm := (h.awaited k ms hms m hm).imp_right (Or.imp_right hstore.contains)

theorem mem_pending_refresh {k : S.Key} :
    k ∈ (c.refresh store).pending ↔ k ∈ c.pending ∧ store.contains k = false := by
  simp [Schedule.refresh]

theorem find?_waiting_refresh (k : S.Key) : Listing.find? k (c.refresh store).waiting =
    if k ∈ (c.refresh store).pending then Listing.find? k c.waiting else none := by
  have hfilter :=
    Listing.find?_filter_key (fun k => (c.refresh store).pending.contains k) k c.waiting
  simp only [List.contains_eq_mem, decide_eq_true_eq] at hfilter
  have hwaiting : (c.refresh store).waiting =
      c.waiting.filter fun e => decide (e.1 ∈ (c.refresh store).pending) := by
    simp [Schedule.refresh]
  rw [hwaiting, hfilter]

theorem find?_refresh {k : S.Key} {ms : List S.Key}
    (h : Listing.find? k (c.refresh store).waiting = some ms) :
    k ∈ (c.refresh store).pending ∧ Listing.find? k c.waiting = some ms := by
  rw [find?_waiting_refresh] at h
  split at h
  next hk => exact ⟨hk, h⟩
  next => cases h

theorem refresh (h : Tracks roots ran c store) : Tracks roots ran (c.refresh store) store where
  covered k hk := by
    by_cases hcached : store.contains k = true
    · exact .inr hcached
    · have hpending := (h.covered k hk).resolve_right hcached
      exact .inl (mem_pending_refresh.mpr ⟨hpending, by simpa using hcached⟩)
  reached k hk := h.reached k (mem_pending_refresh.mp hk).1
  awaited k ms hms m hm := by
    obtain ⟨hawaits, hm⟩ := h.awaited k ms (find?_refresh hms).2 m hm
    refine ⟨hawaits, ?_⟩
    by_cases hcached : store.contains m = true
    · exact .inr hcached
    · have hpending := hm.resolve_right hcached
      exact .inl (mem_pending_refresh.mpr ⟨hpending, by simpa using hcached⟩)

theorem awaits_concat {k l : S.Key} {e : Trial S} (hk : e.key ≠ k) (h : Awaits ran k l) :
    Awaits (ran ++ [e]) k l := by
  obtain ⟨last, hlast, hl⟩ := h
  exact ⟨last, by rw [Trial.last?_concat, if_neg hk, hlast], hl⟩

theorem reached_concat {k : S.Key} {e : Trial S} (h : k ∈ roots ∨ ∃ e ∈ ran, k ∈ e.requested) :
    k ∈ roots ∨ ∃ e' ∈ ran ++ [e], k ∈ e'.requested :=
  h.imp_right fun ⟨e', he', hk⟩ => ⟨e', List.mem_append_left _ he', hk⟩

/-- A trial that stores a value is taken off the schedule. -/
theorem complete (h : Tracks roots ran c store) (e : Trial S)
    (hcached : store.contains e.key = true) :
    Tracks roots (ran ++ [e]) (c.complete e.key) store := by
  have hpending : ∀ k, k ∈ c.pending ∨ store.contains k = true →
      k ∈ (c.complete e.key).pending ∨ store.contains k = true := by
    intro k hk
    by_cases heq : k = e.key
    · exact .inr (heq ▸ hcached)
    · exact hk.imp_left fun hk => List.mem_filter.mpr ⟨hk, by simpa using heq⟩
  refine ⟨fun k hk => hpending k (h.covered k hk), fun k hk => ?_, fun k ms hms m hm => ?_⟩
  · exact reached_concat (h.reached k (List.mem_filter.mp hk).1)
  · have hfind : Listing.find? k (c.complete e.key).waiting =
        if k = e.key then none else Listing.find? k c.waiting :=
      Listing.find?_filter k e.key c.waiting
    rw [hfind] at hms
    split at hms
    next => cases hms
    next hk =>
      obtain ⟨hawaits, hm⟩ := h.awaited k ms hms m hm
      exact ⟨awaits_concat (Ne.symm hk) hawaits, hpending m hm⟩

/-- A trial that misses keys makes them pending and waits for them. -/
theorem suspend (h : Tracks roots ran c store) (e : Trial S) {missing : List S.Key}
    (hmissing : missing ⊆ e.requested) :
    Tracks roots (ran ++ [e]) (c.suspend e.key missing) store := by
  have hpending : ∀ k, k ∈ c.pending ∨ store.contains k = true →
      k ∈ (c.suspend e.key missing).pending ∨ store.contains k = true :=
    fun k hk => hk.imp_left fun hk => Listing.mem_addAll.mpr (.inl hk)
  refine ⟨fun k hk => hpending k (h.covered k hk), fun k hk => ?_, fun k ms hms m hm => ?_⟩
  · rcases Listing.mem_addAll.mp hk with hk | hk
    · exact reached_concat (h.reached k hk)
    · exact .inr ⟨e, List.mem_append_right _ List.mem_cons_self, hmissing hk⟩
  · have hfind : Listing.find? k (c.suspend e.key missing).waiting =
        if e.key = k then some missing else Listing.find? k c.waiting :=
      Listing.find?_put k e.key missing c.waiting
    rw [hfind] at hms
    split at hms
    next hk =>
      cases hms
      exact ⟨⟨e, hk ▸ Trial.last?_concat_self ran e, hmissing hm⟩,
        .inl (Listing.mem_addAll.mpr (.inr hm))⟩
    next hk =>
      obtain ⟨hawaits, hm⟩ := h.awaited k ms hms m hm
      exact ⟨awaits_concat hk hawaits, hpending m hm⟩

theorem stuck (h : Tracks roots ran c store)
    (hfrontier : (c.refresh store).frontier store = []) :
    Cycle.Stuck (c.refresh store).waiting ∧
      ∀ k ∈ (c.refresh store).pending, Listing.find? k (c.refresh store).waiting ≠ none := by
  have hwaits : ∀ k ∈ (c.refresh store).pending, ∃ ms m,
      Listing.find? k (c.refresh store).waiting = some ms ∧ m ∈ ms ∧ store.contains m = false := by
    intro k hk
    have hnot := List.filter_eq_nil_iff.mp hfrontier k hk
    cases hfind : Listing.find? k (c.refresh store).waiting with
    | none => simp [hfind] at hnot
    | some ms =>
        simp only [hfind, List.all_eq_true, not_forall] at hnot
        obtain ⟨m, hm, hn⟩ := hnot
        exact ⟨ms, m, rfl, hm, by simpa using hn⟩
  have hsome : ∀ k ∈ (c.refresh store).pending,
      Listing.find? k (c.refresh store).waiting ≠ none := by
    intro k hk
    obtain ⟨ms, m, hfind, _⟩ := hwaits k hk
    simp [hfind]
  refine ⟨fun k next hnext => ?_, hsome⟩
  obtain ⟨ms, m, hms, hm, hn⟩ := hwaits k (find?_refresh hnext).1
  rw [hnext] at hms
  cases hms
  obtain ⟨_, hpending⟩ := h.refresh.awaited k next hnext m hm
  exact ⟨m, hm, hsome m (hpending.resolve_right (by simp [hn]))⟩

/-- If no pending key can run, the search finds a cycle of keys without a value. -/
theorem cycle (h : Tracks roots ran c store)
    (hpending : (c.refresh store).pending ≠ [])
    (hfrontier : (c.refresh store).frontier store = []) :
    ∃ ks, Cycle.first? (c.refresh store).waiting = some ks ∧
      Cycle.Closed (Awaits ran) ks ∧ ∀ k ∈ ks, store.contains k = false := by
  obtain ⟨hstuck, hsome⟩ := h.stuck hfrontier
  obtain ⟨p, hp⟩ := List.exists_mem_of_ne_nil _ hpending
  have hnonempty : (c.refresh store).waiting ≠ [] := by
    intro hnil
    exact hsome p hp (by rw [hnil]; rfl)
  obtain ⟨ks, hks⟩ := Option.isSome_iff_exists.mp (Cycle.isSome_first? hstuck hnonempty)
  have hclosed := Cycle.closed_of_first? hks
  refine ⟨ks, hks, hclosed.imp fun k l hasks => ?_, fun k hk => ?_⟩
  · obtain ⟨next, hnext, hl⟩ := hasks
    exact (h.refresh.awaited k next hnext l hl).1
  · obtain ⟨l, next, hnext, _⟩ := hclosed.exists_next k hk
    exact (mem_pending_refresh.mp (find?_refresh hnext).1).2

/-- What a round does first either ends the request for a good reason or keeps track. -/
theorem opening {s : Session S} (h : Tracks roots ran c s.store) (keepGoing : Bool) :
    match c.opening s with
    | .ended result => Explained keepGoing roots ran s result
    | .go c' _ => Tracks roots ran c' s.store := by
  have hdone : ∀ c' : Schedule S, Tracks roots ran c' s.store → c'.pending.isEmpty = true →
      ∀ k ∈ roots, s.store.contains k = true := by
    intro c' h' hempty k hk
    refine (h'.covered k hk).resolve_left fun hpending => ?_
    rw [List.isEmpty_iff.mp hempty] at hpending
    cases hpending
  unfold Schedule.opening
  by_cases hpending : c.pending.isEmpty = true
  · rw [if_pos hpending]
    exact .of_ok (hdone c h hpending)
  rw [if_neg hpending]
  by_cases hcancelled : s.isCancelled = true
  · rw [if_pos hcancelled]
    exact .of_cancelled hcancelled
  rw [if_neg hcancelled]
  by_cases hdrained : (c.refresh s.store).pending.isEmpty = true
  · simp only [if_pos hdrained]
    exact .of_ok (hdone _ h.refresh hdrained)
  by_cases hfrontier : ((c.refresh s.store).frontier s.store).isEmpty = true
  · obtain ⟨ks, hks, hclosed, huncached⟩ :=
      h.cycle (fun hnil => hdrained (List.isEmpty_iff.mpr hnil)) (List.isEmpty_iff.mp hfrontier)
    simp only [if_neg hdrained, if_pos hfrontier, hks, Option.getD_some]
    exact .of_cycle hclosed huncached
  simp only [if_neg hdrained, if_neg hfrontier]
  cases hinjected : ((c.refresh s.store).frontier s.store).find? S.isInjected with
  | none => exact h.refresh
  | some k =>
      have hk : k ∈ (c.refresh s.store).pending :=
        (List.mem_filter.mp (List.mem_of_find?_eq_some hinjected)).1
      exact .of_missingInjected (List.find?_some hinjected) (mem_pending_refresh.mp hk).2
        (h.refresh.reached k hk)

/-- Taking the outcomes of trials into account keeps track, or ends the request for a good
reason. -/
theorem settle {s : Session S} (h : Tracks roots ran c s.store) (keepGoing : Bool)
    {es : List (Trial S)} (sound : ∀ e ∈ es, e.Sound ∧ e.after.Grows s) :
    match settle keepGoing (es.map Trial.evaluated) c s with
    | (.ok c', t) => Tracks roots (ran ++ es) c' t.store
    | (.error err, t) => Explained keepGoing roots (ran ++ es) t (.error err) := by
  -- All trials have run before the first outcome is looked at, so the store stays the same here.
  induction es generalizing c ran s with
  | nil => simpa [Engine.settle] using h
  | cons e es ih =>
      obtain ⟨hsound, hgrows⟩ := sound e List.mem_cons_self
      have hrest := fun e' he' => sound e' (List.mem_cons_of_mem _ he')
      have happend : ran ++ e :: es = ran ++ [e] ++ es := by simp
      rw [happend, List.map_cons]
      cases houtcome : e.outcome with
      | done value =>
          have hvalue : s.store.value? e.key = some value :=
            hgrows.store _ _ (hsound.done value houtcome)
          have hevaluated : e.evaluated = ⟨e.key, .done value⟩ := by
            rw [Trial.evaluated, houtcome]
          simp only [hevaluated, Engine.settle]
          cases keepGoing with
          | true => exact ih (h.complete e (Store.contains_of_value? hvalue)) hrest
          | false =>
              cases hfailure : S.failure? e.key value with
              | none =>
                  simp only [Bool.false_eq_true, ite_false]
                  exact ih (h.complete e (Store.contains_of_value? hvalue)) hrest
              | some failure =>
                  simp only [Bool.false_eq_true, ite_false]
                  have hran : e ∈ ran ++ [e] ++ es := by simp
                  exact .of_failFast ⟨e, hran, hevaluated⟩ hvalue hfailure
      | notReady missing =>
          have hmissing : missing ⊆ e.requested := (hsound.missing missing houtcome).2.2.1
          have hevaluated : e.evaluated = ⟨e.key, .notReady missing⟩ := by
            rw [Trial.evaluated, houtcome]
          simp only [hevaluated, Engine.settle]
          refine ih ?_ fun e' he' => ⟨(hrest e' he').1, (hrest e' he').2.trans (s.grows_log _)⟩
          exact h.suspend e hmissing
      | cancelled =>
          have hevaluated : e.evaluated = ⟨e.key, .cancelled⟩ := by
            rw [Trial.evaluated, houtcome]
          simp only [hevaluated, Engine.settle]
          exact .of_cancelled (hgrows.isCancelled (hsound.cancelled houtcome))

end Tracks

namespace Request

/-- A request under way keeps track, and one that has ended has done so for a good reason. -/
def Tracked (keepGoing : Bool) (roots : List S.Key) : Request S → Prop
  | planned c ran s => Tracks roots ran c s.store
  | running c ran x => Tracks roots ran c x.session.store ∧ ∃ start, x.Fair [] start
  | ended ran result s => Explained keepGoing roots ran s result

variable {compute : Computation S} {beside : Beside S} {threads : Nat} {keepGoing : Bool}
  {roots : List S.Key} {x y : Request S}

theorem Step.tracked (hcompute : compute.SuspendsAtRequests) (hbeside : beside.Grows)
    (hstep : x.Step compute beside threads keepGoing y) (h : x.Tracked keepGoing roots) :
    y.Tracked keepGoing roots := by
  cases hstep with
  | halt c ran s result hc =>
      have hopening := Tracks.opening h keepGoing
      rwa [hc] at hopening
  | begin c c' ran s frontier hc =>
      have hopening := Tracks.opening h keepGoing
      rw [hc] at hopening
      have hcomputed := (Schedule.of_opening hc).2.2
      exact ⟨hopening, s.announce c' frontier, .begin hcomputed (.refl _)⟩
  | work c ran x y hround =>
      obtain ⟨htracks, start, hfair⟩ := h
      obtain ⟨hfair', hgrows⟩ := hround.fair hcompute hbeside hfair
      exact ⟨htracks.grows hgrows.store, start, hfair'⟩
  | settle c c' ran es s t hsettle =>
      obtain ⟨htracks, start, hfair⟩ := h
      have hsettled := Tracks.settle htracks keepGoing fun e he =>
        ⟨(hfair.trials e he).2.1.sound, (hfair.trials e he).2.2⟩
      rwa [hsettle] at hsettled
  | fail c ran es s e t hsettle =>
      obtain ⟨htracks, start, hfair⟩ := h
      have hsettled := Tracks.settle htracks keepGoing fun e he =>
        ⟨(hfair.trials e he).2.1.sound, (hfair.trials e he).2.2⟩
      rwa [hsettle] at hsettled

theorem Meanwhile.tracked (hbeside : beside.Grows) (hstep : x.Meanwhile beside y)
    (h : x.Tracked keepGoing roots) : y.Tracked keepGoing roots := by
  cases hstep with
  | planned c ran s t hst => exact Tracks.grows h (hbeside.meanwhile hst).store
  | running c ran xs s t hst =>
      obtain ⟨htracks, start, hfair⟩ := h
      have hgrows := hbeside.meanwhile hst
      exact ⟨htracks.grows hgrows.store, start, hfair.onSession hgrows⟩

theorem Reaches.tracked (hcompute : compute.SuspendsAtRequests) (hbeside : beside.Grows)
    (h : x.Reaches compute beside threads keepGoing y) (hx : x.Tracked keepGoing roots) :
    y.Tracked keepGoing roots := by
  induction h with
  | refl => exact hx
  | tail _ hstep ih =>
      rcases hstep with hstep | hmeanwhile
      · exact hstep.tracked hcompute hbeside ih
      · exact hmeanwhile.tracked hbeside ih

end Request

namespace Session

/-- Runs the rounds of a request. -/
def run (compute : Computation S) (bounds : Bounds) (keepGoing : Bool) (roots : List S.Key)
    (s : Session S) : Except (RequestError S) Unit × Session S :=
  runRounds compute (nestWithin compute bounds) keepGoing bounds.rounds (s.schedule roots) s

def trials (compute : Computation S) (bounds : Bounds) (keepGoing : Bool) (roots : List S.Key)
    (s : Session S) : List (Trial S) :=
  trialsWithin compute (nestWithin compute bounds) keepGoing bounds.rounds (s.schedule roots) s

/-- What a request has come to when at most so many of its rounds have run. -/
def runUpTo (compute : Computation S) (bounds : Bounds) (keepGoing : Bool) (roots : List S.Key)
    (rounds : Nat) (s : Session S) : Except (RequestError S) Unit × Session S :=
  runRounds compute (nestWithin compute bounds) keepGoing rounds (s.schedule roots) s

/-- The trials of a request in at most so many of its rounds. -/
def trialsUpTo (compute : Computation S) (bounds : Bounds) (keepGoing : Bool)
    (roots : List S.Key) (rounds : Nat) (s : Session S) : List (Trial S) :=
  trialsWithin compute (nestWithin compute bounds) keepGoing rounds (s.schedule roots) s

/-- A request for the values of keys runs its rounds and then collects the values. -/
theorem computeMany_eq (compute : Computation S) (bounds : Bounds) (keepGoing : Bool)
    (ks : List S.Key) (s : Session S) :
    s.computeMany compute bounds keepGoing ks =
      match s.run compute bounds keepGoing ks with
      | (.error e, s) => (.error e, s)
      | (.ok (), s) => (collect s.store ks, s) := rfl

theorem explained_of_reaches {compute : Computation S} (h : compute.SuspendsAtRequests)
    {beside : Beside S} (hbeside : beside.Grows) {threads : Nat} {keepGoing : Bool}
    {roots : List S.Key} {s t : Session S} {ran : List (Trial S)}
    {result : Except (RequestError S) Unit}
    (hended : (s.request roots).Reaches compute beside threads keepGoing (.ended ran result t)) :
    Explained keepGoing roots ran t result :=
  hended.tracked h hbeside (Tracks.start roots s.store)

theorem explained_run (s : Session S) {compute : Computation S} (h : compute.SuspendsAtRequests)
    (bounds : Bounds) (keepGoing : Bool) (roots : List S.Key) :
    Explained keepGoing roots (s.trials compute bounds keepGoing roots)
      (s.run compute bounds keepGoing roots).2 (s.run compute bounds keepGoing roots).1 := by
  by_cases hended : (s.run compute bounds keepGoing roots).1 = .error .exhausted
  · rw [hended]
    exact .of_exhausted
  · have hgrows := Beside.nothing_grows (nestWithin_grows h bounds)
    exact explained_of_reaches h hgrows (reaches_ended_iff.mpr ⟨hended, bounds.rounds, rfl, rfl⟩)

/-- Whatever the state of an engine and the roots, however many workers a request has, in whatever
order they act and whatever goes on beside them, what the request comes to says what it should about
the trials that were run and the store that is left. So does what the engine's own request comes
to, which has one worker. -/
theorem run_explained (s : Session S) {compute : Computation S}
    (h : compute.SuspendsAtRequests) (keepGoing : Bool) (roots : List S.Key) :
    (∀ beside : Beside S, beside.Grows → ∀ threads ran result t,
      (s.request roots).Reaches compute beside threads keepGoing (.ended ran result t) →
        Explained keepGoing roots ran t result) ∧
    ∀ bounds, Explained keepGoing roots (s.trials compute bounds keepGoing roots)
      (s.run compute bounds keepGoing roots).2 (s.run compute bounds keepGoing roots).1 :=
  ⟨fun _ hbeside _ _ _ _ hended => explained_of_reaches h hbeside hended,
    fun bounds => s.explained_run h bounds keepGoing roots⟩

end Session

namespace Script

/-- A family in which a node and the mirror of the same name ask for each other. -/
def facing : Computation space
  | .base _ => .done (.error .notReady)
  | .node name => .request (S := space) [NodeKey.mirror name] fun
      | .ok (.cons n _) => .done (.ok n)
      | .error e => .done (.error e)
  | .mirror name => .request (S := space) [NodeKey.node name] fun
      | .ok (.cons n _) => .done (.ok n)
      | .error e => .done (.error e)

theorem facing_suspendsAtRequests : facing.SuspendsAtRequests := by
  intro k hk
  have hstop : ∀ {α : Type} (e : Suspension),
      (.done (.error e) : Task space (Except Suspension α)).Suspends [e] := by
    intro α e
    refine .done fun e' he' => ?_
    cases he'
    exact List.mem_cons_self
  have hdone : ∀ {α : Type} (a : α),
      (.done (.ok a) : Task space (Except Suspension α)).Suspends [] :=
    fun a => .done fun _ he => by cases he
  cases k with
  | base name => cases hk
  | node name => exact .request (fun | .cons _ _ => hdone _) fun e => hstop e
  | mirror name => exact .request (fun | .cons _ _ => hdone _) fun e => hstop e

def blank : Session space := { world := [] }

def missed (k l : NodeKey) (s : Session space) : Trial space :=
  { key := k, before := s, outcome := .notReady [l], requested := [l], after := s }

/-- Two workers take turns, so that both look at the store before either comes to an end. -/
theorem steps_facing (beside : Beside space) (log : List LogEntry) :
    Relation.ReflTransGen (Round.Step facing beside 2)
      ⟨[.queued (NodeKey.node "x"), .queued (NodeKey.mirror "x")], { blank with log := log }⟩
      ⟨[.ended (missed (.node "x") (.mirror "x") { blank with log := log }),
        .ended (missed (.mirror "x") (.node "x") { blank with log := log })],
        { blank with log := log }⟩ := by
  let node : space.Key := NodeKey.node "x"
  let mirror : space.Key := NodeKey.mirror "x"
  have hfirst : ∀ x ∈ ([] : List (Slot space)), x.isQueued = false := by simp
  refine .head (.take [] node [.queued mirror] _ hfirst Nat.zero_lt_two) ?_
  refine .head (.take [_] mirror [] _ (by simp [Slot.isQueued]) Nat.one_lt_two) ?_
  refine .head (.work [_] _ [] _ _ _ (.ask _ _ _ rfl)) ?_
  refine .head (.work [] _ [_] _ _ _ (.ask _ _ _ rfl)) ?_
  refine .head (.work [] _ [_] _ _ _ (.before _ _ _)) ?_
  refine .head (.work [_] _ [] _ _ _ (.before _ _ _)) ?_
  refine .head (.work [_] _ [] _ _ _ (.read _ _ _)) ?_
  refine .head (.work [] _ [_] _ _ _ (.read _ _ _)) ?_
  refine .head (.work [] _ [_] _ _ _ (.after _ _)) ?_
  refine .head (.work [_] _ [] _ _ _ (.after _ _)) ?_
  refine .head (.finish [_] _ [] _ (.error .notReady) rfl) ?_
  exact .single (.finish [] _ [_] _ (.error .notReady) rfl)

theorem reaches_facing (beside : Beside space) : ∃ ran t,
    (blank.request [NodeKey.node "x", NodeKey.mirror "x"]).Reaches facing beside 2 false
      (.ended ran (.error (.cycle [NodeKey.node "x", NodeKey.mirror "x"])) t) := by
  let node : space.Key := NodeKey.node "x"
  let mirror : space.Key := NodeKey.mirror "x"
  let c : Schedule space := ⟨[node, mirror], [], 1⟩
  let waiting : Schedule space := ⟨[node, mirror], [(node, [mirror]), (mirror, [node])], 1⟩
  obtain ⟨log, hlog⟩ : ∃ log, blank.announce c [node, mirror] = { blank with log := log } :=
    ⟨_, rfl⟩
  have hbegin : (blank.request [node, mirror]).Step facing beside 2 false
      (.running c [] ⟨[.queued node, .queued mirror], { blank with log := log }⟩) :=
    hlog ▸ .begin _ c [] blank [node, mirror] rfl
  have hround := Request.reaches_work (steps_facing beside log) false c []
  have hsettle : ∃ log', settle false [⟨node, .notReady [mirror]⟩, ⟨mirror, .notReady [node]⟩] c
      { blank with log := log } = (.ok waiting, { blank with log := log' }) := ⟨_, rfl⟩
  obtain ⟨log', hsettle⟩ := hsettle
  have hhalt : waiting.opening { blank with log := log' } = .ended (.error (.cycle
      ((Cycle.first? waiting.waiting).getD [node, mirror]))) := rfl
  rw [Cycle.first?_pair NodeKey.noConfusion] at hhalt
  exact ⟨_, _, .head (.inl hbegin) (hround.trans (.head
    (.inl (.settle c waiting [] [_, _] _ _ hsettle)) (.single (.inl (.halt _ _ _ _ hhalt)))))⟩

theorem run_explained_facing : ∃ ran t,
    (blank.request [NodeKey.node "x", NodeKey.mirror "x"]).Reaches facing
        (.nothing (nestWithin facing {})) 2 false
        (.ended ran (.error (.cycle [NodeKey.node "x", NodeKey.mirror "x"])) t) ∧
      Cycle.Closed (Awaits ran) [NodeKey.node "x", NodeKey.mirror "x"] := by
  obtain ⟨ran, t, hreaches⟩ := reaches_facing (.nothing (nestWithin facing {}))
  have hgrows := Beside.nothing_grows (nestWithin_grows facing_suspendsAtRequests {})
  have hall := blank.run_explained facing_suspendsAtRequests false
    [NodeKey.node "x", NodeKey.mirror "x"]
  exact ⟨ran, t, hreaches, ((hall.1 _ hgrows 2 ran _ t hreaches).cycle _ rfl).1⟩

end Script
end BuildAnalysis.Engine
