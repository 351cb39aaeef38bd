import BuildAnalysis.Proofs.Engine.Workers

/-!
# A single worker

Whatever the number of its workers, a request may run the keys of each round one after the other, as
the engine's own request does. If it has a single worker and nothing goes on beside it, it can do
nothing else: every step of that worker leaves what the round will come to as it is.
-/
namespace BuildAnalysis.Engine

open Relation

variable {S : KeySpace} {α : Type} {beside : Beside S}

theorem Beside.nothing_serves (nest : Nest S) (k : S.Key) (s : Session S) :
    (Beside.nothing nest).serves k s (nest k s) := rfl

/-! ### A worker may run its keys one after the other -/

section Rounds

variable {compute : Computation S} {nest : Nest S} {threads : Nat}
  (serves : ∀ k s, beside.serves k s (nest k s))

include serves in
/-- A task may take all its steps in a row. -/
theorem Control.steps_run (t : Task S α) (r : Running S) :
    ReflTransGen (fun x y : Control S α × Running S => x.1.Step beside x.2 y.1 y.2) (.task t, r)
      (.task (.done (t.run nest r).1), (t.run nest r).2) := by
  induction t generalizing r with
  | done a => exact .refl
  | request ks next ih =>
      by_cases live : r.session.isCancelled = false
      · rw [Task.run_request_answer live]
        let asked := r.notify S.beforeRequest
        exact .head (b := (.asking ks next, r)) (.ask ks next r live)
          (.head (b := (.reading ks next, asked)) (.before ks next r)
          (.head (b := (.answered (next (asked.answer ks)), asked.record ks)) (.read ks next asked)
          (.head (.after _ (asked.record ks)) (ih _ _))))
      · have hcancelled : r.session.isCancelled = true := by simpa using live
        rw [Task.run_request_cancelled hcancelled]
        exact .head (.refuse ks next r hcancelled) (ih _ _)
  | isCancelled next ih => exact .head (.isCancelled next r) (ih _ _)
  | cancel t ih => exact .head (.cancel t r) (ih _)
  | observe o next ih => exact .head (.observe o next r) (ih _ _)
  | perform e t ih => exact .head (.perform e t r) (ih _)
  | log entry t ih => exact .head (.log entry t r) (ih _)
  | nested k next ih => exact .head (.nested k next r _ (serves k r.session)) (ih _ _)
  | commit changes t ih => exact .head (.commit changes t r) (ih _)

namespace Round

include serves in
theorem steps_taken (xs ys : List (Slot S)) (k : S.Key) (s : Session S) :
    ReflTransGen (Step compute beside threads)
      ⟨xs ++ .taken { key := k, before := s, control := .task (compute k) } :: ys, s⟩
      ⟨xs ++ .ended (trial compute nest k s) :: ys, (trial compute nest k s).after⟩ := by
  let w : Worker S := { key := k, before := s, control := .task (compute k) }
  have hrun := Control.steps_run serves (compute k) { session := s }
  let round (p : Control S (Except Suspension (S.Value k)) × Running S) : Round S :=
    ⟨xs ++ .taken (w.goOn p.1 p.2) :: ys, p.2.session⟩
  have hlift := hrun.lift (p := Step compute beside threads) round fun a b hstep =>
    .work xs (w.goOn a.1 a.2) ys a.2.session b.1 b.2 hstep
  exact hlift.tail (.finish xs _ ys _ _ rfl)

include serves in
theorem steps_trialsOf (es : List (Trial S)) (ks : List S.Key) (s : Session S) :
    ReflTransGen (Step compute beside threads) ⟨es.map .ended ++ ks.map .queued, s⟩
      ⟨(es ++ trialsOf compute nest ks s).map .ended, (evaluateAll compute nest ks s).2⟩ := by
  induction ks generalizing es s with
  | nil =>
      simp only [List.map_nil, List.append_nil, trialsOf, evaluateAll]
      exact .refl
  | cons k ks ih =>
      have hfirst : ∀ x ∈ es.map Slot.ended, x.isQueued = false := by simp [Slot.isQueued]
      have hfree : (es.map Slot.ended ++ Slot.queued k :: ks.map Slot.queued).countP
          Slot.isTaken = 0 := by
        simp [List.countP_eq_zero, Slot.isTaken]
      have htake : Step compute beside threads
          ⟨es.map .ended ++ .queued k :: ks.map .queued, s⟩ _ :=
        .take (es.map .ended) k (ks.map .queued) s hfirst (by rw [hfree, workers]; omega)
      have hrest := ih (es ++ [trial compute nest k s]) (trial compute nest k s).after
      simp only [List.map_append, List.map_cons, List.map_nil, List.append_assoc,
        List.cons_append, List.nil_append] at hrest ⊢
      exact .head htake ((steps_taken serves _ _ k s).trans hrest)

end Round

namespace Request

variable {keepGoing : Bool} {c c' : Schedule S} {ran : List (Trial S)} {s : Session S}
  {frontier : List S.Key}

include serves in
theorem reaches_round (h : c.opening s = .go c' frontier) (ran : List (Trial S)) :
    Reaches compute beside threads keepGoing (.planned c ran s) (.running c' ran
      ⟨(trialsOf compute nest frontier (s.announce c' frontier)).map .ended,
        (evaluateAll compute nest frontier (s.announce c' frontier)).2⟩) := by
  have hround : ReflTransGen (Round.Step compute beside threads) _ _ :=
    Round.steps_trialsOf serves [] frontier (s.announce c' frontier)
  exact .head (.inl (.begin c c' ran s frontier h)) (reaches_work hround keepGoing c' ran)

include serves in
/-- The engine's own rounds, which have one worker, are rounds that a request may have. -/
theorem reaches_runRounds (rounds : Nat) (c : Schedule S) (ran : List (Trial S)) (s : Session S)
    (h : (runRounds compute nest keepGoing rounds c s).1 ≠ .error .exhausted) :
    Reaches compute beside threads keepGoing (.planned c ran s)
      (.ended (ran ++ trialsWithin compute nest keepGoing rounds c s)
        (runRounds compute nest keepGoing rounds c s).1
        (runRounds compute nest keepGoing rounds c s).2) := by
  induction rounds, c, s using rounds_induction compute nest keepGoing generalizing ran with
  | out c s =>
      have hempty : c.pending.isEmpty = true := by
        by_contra hpending
        simp [runRounds, hpending] at h
      have hopening : c.opening s = .ended (.ok ()) := by rw [Schedule.opening, if_pos hempty]
      simp only [runRounds, if_pos hempty, trialsWithin, List.append_nil]
      exact .single (.inl (.halt c ran s _ hopening))
  | ended rounds c s result hc =>
      rw [runRounds_ended hc, trialsWithin_ended hc, List.append_nil]
      exact .single (.inl (.halt c ran s result hc))
  | failed rounds c s c' frontier e t hc hsettle =>
      rw [runRounds_go_error hc hsettle, trialsWithin_go_error hc hsettle]
      rw [evaluateAll_fst] at hsettle
      exact (reaches_round serves hc ran).tail (.inl (.fail c' ran _ _ e t hsettle))
  | next rounds c s c' frontier c'' t hc hsettle ih =>
      rw [runRounds_go hc hsettle] at h
      rw [runRounds_go hc hsettle, trialsWithin_go hc hsettle, ← List.append_assoc]
      rw [evaluateAll_fst] at hsettle
      exact ((reaches_round serves hc ran).tail (.inl (.settle c' c'' ran _ _ t hsettle))).trans
        (ih _ h)

include serves in
theorem exists_reaches_trials (rounds : Nat) (c : Schedule S) (ran : List (Trial S))
    (s : Session S) : ∃ x, Reaches compute beside threads keepGoing (.planned c ran s) x ∧
      x.ran = ran ++ trialsWithin compute nest keepGoing rounds c s := by
  induction rounds, c, s using rounds_induction compute nest keepGoing generalizing ran with
  | out c s => exact ⟨_, .refl, by simp [trialsWithin, Request.ran]⟩
  | ended rounds c s result hc =>
      exact ⟨_, .refl, by rw [trialsWithin_ended hc, List.append_nil, Request.ran]⟩
  | failed rounds c s c' frontier e t hc hsettle =>
      rw [trialsWithin_go_error hc hsettle]
      rw [evaluateAll_fst] at hsettle
      exact ⟨_, (reaches_round serves hc ran).tail (.inl (.fail c' ran _ _ e t hsettle)), rfl⟩
  | next rounds c s c' frontier c'' t hc hsettle ih =>
      rw [trialsWithin_go hc hsettle, ← List.append_assoc]
      rw [evaluateAll_fst] at hsettle
      obtain ⟨x, hx, hran⟩ := ih (ran ++ trialsOf compute nest frontier (s.announce c' frontier))
      have hround : Reaches compute beside threads keepGoing (.planned c ran s) _ :=
        (reaches_round serves hc ran).tail (.inl (.settle c' c'' ran _ _ t hsettle))
      exact ⟨x, hround.trans hx, hran⟩

end Request

end Rounds

/-! ### A single worker can do nothing else -/

section Alone

variable {compute : Computation S} {nest : Nest S}

/-- What a task comes to when nothing goes on beside it. -/
def Control.result (nest : Nest S) : Control S α → Running S → α × Running S
  | task t, r => t.run nest r
  | asking ks next, r =>
    let before := r.notify S.beforeRequest
    (next (before.answer ks)).run nest ((before.record ks).notify S.afterRequest)
  | reading ks next, r => (next (r.answer ks)).run nest ((r.record ks).notify S.afterRequest)
  | answered t, r => t.run nest (r.notify S.afterRequest)

theorem Control.Step.result {c c' : Control S α} {r r' : Running S}
    (h : c.Step (.nothing nest) r c' r') : c'.result nest r' = c.result nest r := by
  cases h with
  | refuse ks next r hcancelled => exact (Task.run_request_cancelled hcancelled ks next).symm
  | ask ks next r live => exact (Task.run_request_answer live ks next).symm
  | nested k next r served hserved =>
      obtain rfl := hserved
      rfl
  | before | read | after | isCancelled | cancel | observe | perform | log | commit => rfl

/-- The trial that the task of a worker makes when nothing goes on beside it. -/
def Worker.result (nest : Nest S) (w : Worker S) (s : Session S) : Trial S :=
  let ran := w.control.result nest (w.running s)
  (w.goOn (.task (.done ran.1)) ran.2).finish ran.1 ran.2.session

namespace Slot

def result (compute : Computation S) (nest : Nest S) : Slot S → Session S → Trial S × Session S
  | queued k, s => (trial compute nest k s, (trial compute nest k s).after)
  | taken w, s => (w.result nest s, (w.result nest s).after)
  | ended e, s => (e, s)

/-- What slots come to that go on one after the other. -/
def results (compute : Computation S) (nest : Nest S) :
    List (Slot S) → Session S → List (Trial S) × Session S
  | [], s => ([], s)
  | x :: xs, s =>
    let first := x.result compute nest s
    let rest := results compute nest xs first.2
    (first.1 :: rest.1, rest.2)

theorem results_queued (ks : List S.Key) (s : Session S) :
    results compute nest (ks.map queued) s =
      (trialsOf compute nest ks s, (evaluateAll compute nest ks s).2) := by
  induction ks generalizing s with
  | nil => rfl
  | cons k ks ih => simp only [List.map_cons, results, result, ih, trialsOf, evaluateAll]; rfl

theorem results_ended (es : List (Trial S)) (s : Session S) :
    results compute nest (es.map ended) s = (es, s) := by
  induction es with
  | nil => rfl
  | cons e es ih => simp only [List.map_cons, results, result, ih]

/-- Slots after keys that have ended come to the same if the first of them does. -/
theorem results_replace (es : List (Trial S)) (ys : List (Slot S)) {a b : Slot S} {s t : Session S}
    (h : b.result compute nest t = a.result compute nest s) :
    results compute nest (es.map ended ++ b :: ys) t =
      results compute nest (es.map ended ++ a :: ys) s := by
  induction es with
  | nil => simp only [List.map_nil, List.nil_append, results, h]
  | cons e es ih => simp only [List.map_cons, List.cons_append, results, result, ih]

end Slot

namespace Round

/-- The keys before the one that is run have ended, and those after it are queued. -/
def InOrder (x : Round S) : Prop :=
  x.slots.Pairwise fun a b => (a.isQueued = false ∧ a.isTaken = false) ∨ b.isQueued = true

theorem inOrder_queued (ks : List S.Key) (s : Session S) : InOrder ⟨ks.map .queued, s⟩ :=
  List.pairwise_map.mpr (List.pairwise_iff_forall_sublist.mpr fun _ => .inr rfl)

variable {x y : Round S}

theorem InOrder.replace {xs ys : List (Slot S)} {a b : Slot S} {s t : Session S}
    (h : InOrder ⟨xs ++ a :: ys, s⟩) (ha : a.isQueued = true ∨ a.isTaken = true)
    (hxs : ∀ x ∈ xs, x.isQueued = false ∧ x.isTaken = false) : InOrder ⟨xs ++ b :: ys, t⟩ := by
  obtain ⟨hbefore, hafter, -⟩ := List.pairwise_append.mp h
  obtain ⟨hys, hafter⟩ := List.pairwise_cons.mp hafter
  have hqueued : ∀ y ∈ ys, y.isQueued = true := fun y hy =>
    (hys y hy).resolve_left fun hended => by simp [hended] at ha
  exact List.pairwise_append.mpr ⟨hbefore,
    List.pairwise_cons.mpr ⟨fun y hy => .inr (hqueued y hy), hafter⟩,
    fun x hx _ _ => .inl (hxs x hx)⟩

theorem InOrder.ended_before {xs ys : List (Slot S)} {w : Worker S} {s : Session S}
    (h : InOrder ⟨xs ++ .taken w :: ys, s⟩) :
    ∀ x ∈ xs, x.isQueued = false ∧ x.isTaken = false := fun x hx =>
  ((List.pairwise_append.mp h).2.2 x hx _ List.mem_cons_self).resolve_right nofun

/-- A step of a single worker leaves what the round will come to. -/
theorem Step.alone (hstep : x.Step compute (.nothing nest) 1 y) (hx : x.InOrder) :
    y.InOrder ∧ Slot.results compute nest y.slots y.session =
      Slot.results compute nest x.slots x.session := by
  cases hstep with
  | take xs k ys s hfirst hfree =>
      have hone : workers 1 ⟨xs ++ .queued k :: ys, s⟩ = 1 := by
        rw [workers]
        omega
      have hnone := Nat.lt_one_iff.mp (hone ▸ hfree)
      have hxs : ∀ x ∈ xs, x.isQueued = false ∧ x.isTaken = false := fun x hx =>
        ⟨hfirst x hx, by
          simpa using List.countP_eq_zero.mp hnone x (List.mem_append_left _ hx)⟩
      obtain ⟨es, rfl⟩ := exists_trials hxs
      exact ⟨hx.replace (.inl rfl) hxs, Slot.results_replace es ys rfl⟩
  | work xs w ys s c r hcontrol =>
      have hxs := hx.ended_before
      obtain ⟨es, rfl⟩ := exists_trials hxs
      refine ⟨hx.replace (.inr rfl) hxs, Slot.results_replace es ys ?_⟩
      have hresult : (w.goOn c r).result nest r.session = w.result nest s := by
        have hcontrol' : (w.goOn c r).control.result nest ((w.goOn c r).running r.session) =
            w.control.result nest (w.running s) := hcontrol.result
        rw [Worker.result, hcontrol']
        rfl
      rw [Slot.result, Slot.result, hresult]
  | finish xs w ys s a hdone =>
      have hxs := hx.ended_before
      obtain ⟨es, rfl⟩ := exists_trials hxs
      refine ⟨hx.replace (.inr rfl) hxs, Slot.results_replace es ys ?_⟩
      have hresult : w.result nest s = w.finish a s := by
        rw [Worker.result, hdone]
        rfl
      rw [Slot.result, Slot.result, hresult]

end Round

theorem settle_ne_exhausted {keepGoing : Bool} (es : List (Evaluated S)) (c : Schedule S)
    (s : Session S) : (settle keepGoing es c s).1 ≠ .error .exhausted := by
  induction es generalizing c s with
  | nil => simp [settle]
  | cons e es ih =>
      obtain ⟨k, outcome⟩ := e
      cases outcome with
      | done v =>
          simp only [settle]
          split
          next => simp
          next => exact ih _ _
      | notReady ms => exact ih _ _
      | cancelled => simp [settle]

namespace Request

variable {keepGoing : Bool} {c : Schedule S} {s : Session S} {x y : Request S}

/-- The engine's own rounds, begun here, come after some rounds to what is left of the request. -/
def Resumes (compute : Computation S) (nest : Nest S) (keepGoing : Bool) (c : Schedule S)
    (s : Session S) (c' : Schedule S) (ran : List (Trial S)) (t : Session S) : Prop :=
  ∃ before, ∀ rounds,
    runRounds compute nest keepGoing (before + rounds) c s =
        runRounds compute nest keepGoing rounds c' t ∧
      trialsWithin compute nest keepGoing (before + rounds) c s =
        ran ++ trialsWithin compute nest keepGoing rounds c' t

/-- The request does as the engine's own rounds. -/
def Alone (compute : Computation S) (nest : Nest S) (keepGoing : Bool) (c : Schedule S)
    (s : Session S) : Request S → Prop
  | planned c' ran t => Resumes compute nest keepGoing c s c' ran t
  | running c' ran x => ∃ c₀ t frontier, c₀.opening t = .go c' frontier ∧
      Resumes compute nest keepGoing c s c₀ ran t ∧ x.InOrder ∧
      Slot.results compute nest x.slots x.session =
        (trialsOf compute nest frontier (t.announce c' frontier),
          (evaluateAll compute nest frontier (t.announce c' frontier)).2)
  | ended ran result t => result ≠ .error .exhausted ∧ ∃ rounds,
      runRounds compute nest keepGoing rounds c s = (result, t) ∧
        trialsWithin compute nest keepGoing rounds c s = ran

theorem Step.alone (hstep : x.Step compute (.nothing nest) 1 keepGoing y)
    (hx : x.Alone compute nest keepGoing c s) : y.Alone compute nest keepGoing c s := by
  cases hstep with
  | halt c' ran t result hc =>
      obtain ⟨before, hresumes⟩ := hx
      obtain ⟨hrun, htrials⟩ := hresumes 1
      refine ⟨?_, before + 1, by rw [hrun, runRounds_ended hc], by
        rw [htrials, trialsWithin_ended hc, List.append_nil]⟩
      rcases Schedule.of_opening_ended hc with rfl | rfl | ⟨_, rfl⟩ | ⟨_, rfl⟩ <;> nofun
  | begin c' c'' ran t frontier hc =>
      exact ⟨c', t, frontier, hc, hx, Round.inOrder_queued _ _, Slot.results_queued _ _⟩
  | work c' ran x y hround =>
      obtain ⟨c₀, t, frontier, hc, hresumes, horder, hresults⟩ := hx
      obtain ⟨horder', hresults'⟩ := hround.alone horder
      exact ⟨c₀, t, frontier, hc, hresumes, horder', hresults'.trans hresults⟩
  | settle c' c'' ran es t u hsettle =>
      obtain ⟨c₀, t₀, frontier, hc, ⟨before, hresumes⟩, -, hresults⟩ := hx
      rw [Slot.results_ended] at hresults
      obtain ⟨rfl, rfl⟩ := Prod.mk.inj hresults
      rw [← evaluateAll_fst] at hsettle
      refine ⟨before + 1, fun rounds => ?_⟩
      obtain ⟨hrun, htrials⟩ := hresumes (rounds + 1)
      rw [Nat.add_right_comm, Nat.add_assoc, hrun, htrials, runRounds_go hc hsettle,
        trialsWithin_go hc hsettle, List.append_assoc]
      exact ⟨rfl, rfl⟩
  | fail c' ran es t e u hsettle =>
      obtain ⟨c₀, t₀, frontier, hc, ⟨before, hresumes⟩, -, hresults⟩ := hx
      rw [Slot.results_ended] at hresults
      obtain ⟨rfl, rfl⟩ := Prod.mk.inj hresults
      rw [← evaluateAll_fst] at hsettle
      obtain ⟨hrun, htrials⟩ := hresumes 1
      refine ⟨fun hexhausted => ?_, before + 1, by rw [hrun, runRounds_go_error hc hsettle], by
        rw [htrials, trialsWithin_go_error hc hsettle]⟩
      cases hexhausted
      exact settle_ne_exhausted _ _ _ (congrArg Prod.fst hsettle)

end Request

/-- A request that has a single worker and nothing beside it ends exactly as the engine's own rounds
do, after the same trials. -/
theorem Session.reaches_ended_iff {keepGoing : Bool} {roots : List S.Key} {s t : Session S}
    {ran : List (Trial S)} {result : Except (RequestError S) Unit} :
    (s.request roots).Reaches compute (.nothing nest) 1 keepGoing (.ended ran result t) ↔
      result ≠ .error .exhausted ∧ ∃ rounds,
        runRounds compute nest keepGoing rounds (s.schedule roots) s = (result, t) ∧
          trialsWithin compute nest keepGoing rounds (s.schedule roots) s = ran := by
  constructor
  · intro h
    have halone : ∀ x, (s.request roots).Reaches compute (.nothing nest) 1 keepGoing x →
        x.Alone compute nest keepGoing (s.schedule roots) s := by
      intro x hx
      induction hx with
      | refl => exact ⟨0, fun rounds => by simp⟩
      | tail _ hstep ih =>
          rcases hstep with hstep | hmeanwhile
          · exact hstep.alone ih
          · cases hmeanwhile with
            | planned c ran t u hnothing => exact hnothing.elim
            | running c ran xs t u hnothing => exact hnothing.elim
    exact halone _ h
  · rintro ⟨hresult, rounds, hrun, rfl⟩
    have hreaches : (s.request roots).Reaches compute (.nothing nest) 1 keepGoing _ :=
      Request.reaches_runRounds (Beside.nothing_serves nest) rounds (s.schedule roots) [] s
        (by rwa [hrun])
    rwa [hrun] at hreaches

end Alone
end BuildAnalysis.Engine
