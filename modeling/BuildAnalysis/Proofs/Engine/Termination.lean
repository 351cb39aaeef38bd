import BuildAnalysis.Proofs.Engine.Thrift

/-!
# Requests come to an end

Every round of a request ends, and when its outcomes have been taken into account the request has
run more trials than before. If the keys that it may demand are finitely many, these are bounded, so
that it can only go on finitely often. Until it has ended it can go on, unless one of its tasks makes
a nested request that nobody serves. All this holds for any number of workers, whatever the order in
which they act.
-/
namespace BuildAnalysis.Engine

open Relation

variable {S : KeySpace} {α : Type} {compute : Computation S} {beside : Beside S} {threads : Nat}
  {keepGoing : Bool}

/-! ### Trials of a request -/

namespace Request

variable {roots : List S.Key} {s : Session S} {x y : Request S}

/-- The trials of a request are warranted, and those of the round under way will be. -/
def Justified (roots : List S.Key) (s : Session S) : Request S → Prop
  | planned c ran t => Warranted roots s ran ∧ s.Grows t ∧ Holds roots ran c t.store []
  | running c ran x => Warranted roots s ran ∧ ∃ start, x.Due roots s ran c start
  | ended ran _ _ => Warranted roots s ran

theorem Justified.warranted (h : x.Justified roots s) : Warranted roots s x.ran := by
  cases x with
  | planned c ran t => exact h.1
  | running c ran x => exact h.1
  | ended ran result t => exact h

theorem Step.justified (hcompute : compute.WaitsAtRequests) (hbeside : beside.Grows)
    (hstep : x.Step compute beside threads keepGoing y) (h : x.Justified roots s) :
    y.Justified roots s := by
  cases hstep with
  | halt c ran t result hc => exact h.1
  | begin c c' ran t frontier hc =>
      obtain ⟨hran, hgrows, hholds⟩ := h
      exact ⟨hran, _, .begin hgrows hholds hc⟩
  | work c ran x y hround =>
      obtain ⟨hran, start, hdue⟩ := h
      exact ⟨hran, start, hdue.work hcompute hbeside hround⟩
  | settle c c' ran es t u hsettle =>
      obtain ⟨hran, start, hdue⟩ := h
      exact ⟨hdue.warranted hran, hdue.settle hsettle⟩
  | fail c ran es t e u hsettle =>
      obtain ⟨hran, start, hdue⟩ := h
      exact hdue.warranted hran

theorem Meanwhile.justified (hbeside : beside.Grows) (hstep : x.Meanwhile beside y)
    (h : x.Justified roots s) : y.Justified roots s := by
  cases hstep with
  | planned c ran t u htu =>
      obtain ⟨hran, hgrows, hholds⟩ := h
      have hmeanwhile := hbeside.meanwhile htu
      exact ⟨hran, hgrows.trans hmeanwhile, hholds.grows hmeanwhile.store⟩
  | running c ran xs t u htu =>
      obtain ⟨hran, start, hdue⟩ := h
      exact ⟨hran, start, hdue.onSession (hbeside.meanwhile htu)⟩

theorem Reaches.justified (hcompute : compute.WaitsAtRequests) (hbeside : beside.Grows)
    (h : (s.request roots).Reaches compute beside threads keepGoing x) :
    x.Justified roots s := by
  induction h with
  | refl => exact ⟨⟨by simp, by simp, by simp, .nil⟩, .refl s, .start roots s⟩
  | tail _ hstep ih =>
      rcases hstep with hstep | hmeanwhile
      · exact hstep.justified hcompute hbeside ih
      · exact hmeanwhile.justified hbeside ih

end Request

namespace Session

/-- The keys that a request may demand, however far it comes. -/
def demanded (compute : Computation S) (beside : Beside S) (threads : Nat) (keepGoing : Bool)
    (roots : List S.Key) (s : Session S) : Set S.Key :=
  {k | ∃ x, (s.request roots).Reaches compute beside threads keepGoing x ∧
    Demanded roots x.ran k}

/-- Each key that may be demanded may be run once more than there are such keys. -/
noncomputable def mostTrials (compute : Computation S) (beside : Beside S) (threads : Nat)
    (keepGoing : Bool) (roots : List S.Key) (s : Session S) : Nat :=
  let keys := s.demanded compute beside threads keepGoing roots
  keys.ncard * (keys.ncard + 1)

structure Thrifty (roots : List S.Key) (s : Session S) (ran : List (Trial S)) : Prop where
  /-- What is run had no value when the request began. -/
  uncached : ∀ e ∈ ran, s.store.contains e.key = false
  /-- What is run is a root, or a trial of a demanded key requested it. -/
  demanded : ∀ e ∈ ran, Demanded roots ran e.key
  /-- No key completes twice. -/
  completed : ((ran.filter Trial.completes).map Trial.key).Nodup
  /-- A key is run once more than there are keys that it requests, at most. -/
  restarts : ∀ k, ran.countP (fun e => e.key = k) ≤ 1 + (Trial.requestedBy k ran).card

end Session

theorem Warranted.thrifty {roots : List S.Key} {s : Session S} {ran : List (Trial S)}
    (h : Warranted roots s ran) : s.Thrifty roots ran where
  uncached := h.uncached
  demanded := h.demanded
  completed := Trial.nodup_completed h.retried
  restarts := Trial.countP_le_requestedBy h.misses h.retried

/-! ### Going on -/

namespace Request

/-- What the request may be after its next step, whatever happens beside it before. -/
def Next (compute : Computation S) (beside : Beside S) (threads : Nat) (keepGoing : Bool)
    (y x : Request S) : Prop :=
  ∃ x', ReflTransGen (Meanwhile beside) x x' ∧ x'.Step compute beside threads keepGoing y

/-- Some worker of the request is about to make a nested request that nobody serves. -/
def Unserved (beside : Beside S) : Request S → Prop
  | planned .. => False
  | running _ _ x => x.Unserved beside
  | ended .. => False

/-- A request that has not ended can go on. -/
theorem exists_step (beside : Beside S) (x : Request S) :
    (∃ ran result t, x = .ended ran result t) ∨ x.Unserved beside ∨
      ∃ y, x.Step compute beside threads keepGoing y := by
  cases x with
  | ended ran result t => exact .inl ⟨ran, result, t, rfl⟩
  | planned c ran t =>
      cases hc : c.opening t with
      | ended result => exact .inr (.inr ⟨_, .halt c ran t result hc⟩)
      | go c' frontier => exact .inr (.inr ⟨_, .begin c c' ran t frontier hc⟩)
  | running c ran x =>
      rcases Round.exists_step beside x with ⟨es, hes⟩ | hunserved | ⟨y, hstep⟩
      · obtain ⟨xs, t⟩ := x
        obtain rfl : xs = es.map .ended := hes
        cases hsettle : settle keepGoing (es.map Trial.evaluated) c t with
        | mk result u =>
            cases result with
            | ok c' => exact .inr (.inr ⟨_, .settle c c' ran es t u hsettle⟩)
            | error e => exact .inr (.inr ⟨_, .fail c ran es t e u hsettle⟩)
      · exact .inr (.inl hunserved)
      · exact .inr (.inr ⟨_, .work c ran x y hstep⟩)

section Meanwhile

variable {c : Schedule S} {ran : List (Trial S)} {xs : List (Slot S)} {t : Session S}
  {result : Except (RequestError S) Unit} {y : Request S}

theorem exists_of_meanwhile_planned (h : ReflTransGen (Meanwhile beside) (.planned c ran t) y) :
    ∃ u, y = .planned c ran u := by
  induction h with
  | refl => exact ⟨t, rfl⟩
  | tail _ hstep ih =>
      obtain ⟨u, rfl⟩ := ih
      cases hstep
      exact ⟨_, rfl⟩

theorem exists_of_meanwhile_running
    (h : ReflTransGen (Meanwhile beside) (.running c ran ⟨xs, t⟩) y) :
    ∃ u, y = .running c ran ⟨xs, u⟩ := by
  induction h with
  | refl => exact ⟨t, rfl⟩
  | tail _ hstep ih =>
      obtain ⟨u, rfl⟩ := ih
      cases hstep
      exact ⟨_, rfl⟩

theorem eq_of_meanwhile_ended (h : ReflTransGen (Meanwhile beside) (.ended ran result t) y) :
    y = .ended ran result t := by
  induction h with
  | refl => rfl
  | tail _ hstep ih =>
      subst ih
      cases hstep

theorem acc_ended (ran : List (Trial S)) (result : Except (RequestError S) Unit) (t : Session S) :
    Acc (Next compute beside threads keepGoing) (.ended ran result t) := by
  refine ⟨_, fun y ⟨x, hmeanwhile, hstep⟩ => ?_⟩
  obtain rfl := eq_of_meanwhile_ended hmeanwhile
  cases hstep

end Meanwhile

section Ending

variable {roots : List S.Key} {s : Session S} (hcompute : compute.WaitsAtRequests)
  (hbeside : beside.Grows)

theorem Reaches.meanwhile {w x y : Request S} (h : w.Reaches compute beside threads keepGoing x)
    (hmeanwhile : ReflTransGen (Meanwhile beside) x y) :
    w.Reaches compute beside threads keepGoing y :=
  h.trans (hmeanwhile.lift id fun _ _ hstep => .inr hstep)

include hcompute hbeside in
/-- A round under way comes to an end, and with it the request if it does so after any trials. -/
theorem acc_running {c : Schedule S} {ran : List (Trial S)} {x : Round S}
    (hx : (s.request roots).Reaches compute beside threads keepGoing (.running c ran x))
    (hnext : ∀ c' es t, es ≠ [] →
      (s.request roots).Reaches compute beside threads keepGoing (.planned c' (ran ++ es) t) →
        Acc (Next compute beside threads keepGoing) (.planned c' (ran ++ es) t)) :
    Acc (Next compute beside threads keepGoing) (.running c ran x) := by
  obtain ⟨xs, t⟩ := x
  induction xs using Round.wellFounded_further.induction generalizing t with
  | _ xs ih =>
      refine ⟨_, fun y ⟨x, hmeanwhile, hstep⟩ => ?_⟩
      obtain ⟨u, rfl⟩ := exists_of_meanwhile_running hmeanwhile
      have hu := hx.meanwhile hmeanwhile
      have hy := hu.tail (.inl hstep)
      cases hstep with
      | work c ran x y hround => exact ih y.slots hround.further y.session hy
      | settle c c' ran es u v hsettle =>
          obtain ⟨-, start, hdue⟩ := hu.justified hcompute hbeside
          exact hnext c' es v hdue.trials_ne_nil hy
      | fail c ran es u e v hsettle => exact acc_ended _ _ _

include hcompute hbeside in
/-- If no more than so many trials may be run, every request that is reached comes to an end. -/
theorem acc_of_reaches {trials : Nat}
    (bound : ∀ x, (s.request roots).Reaches compute beside threads keepGoing x →
      x.ran.length ≤ trials) {x : Request S}
    (hx : (s.request roots).Reaches compute beside threads keepGoing x) :
    Acc (Next compute beside threads keepGoing) x := by
  -- With each round the number of trials that may still be run becomes smaller.
  induction hleft : trials - x.ran.length using Nat.strong_induction_on generalizing x with
  | _ left ih =>
      have hnext : ∀ c' es t, es ≠ [] →
          (s.request roots).Reaches compute beside threads keepGoing
            (.planned c' (x.ran ++ es) t) →
          Acc (Next compute beside threads keepGoing) (.planned c' (x.ran ++ es) t) := by
        intro c' es t hes hreach
        have hlength : (x.ran ++ es).length ≤ trials := bound _ hreach
        have hpos := List.length_pos_of_ne_nil hes
        refine ih (trials - (x.ran ++ es).length) ?_ hreach rfl
        rw [List.length_append] at hlength ⊢
        omega
      cases x with
      | ended ran result t => exact acc_ended ran result t
      | running c ran x => exact acc_running hcompute hbeside hx hnext
      | planned c ran t =>
          refine ⟨_, fun y ⟨x, hmeanwhile, hstep⟩ => ?_⟩
          obtain ⟨u, rfl⟩ := exists_of_meanwhile_planned hmeanwhile
          have hy := (hx.meanwhile hmeanwhile).tail (.inl hstep)
          cases hstep with
          | halt => exact acc_ended _ _ _
          | begin => exact acc_running hcompute hbeside hy hnext

end Ending

end Request

/-! ### Keys that request each other only -/

/-- Whatever values the task gets, it requests keys among the given ones only. -/
inductive Task.RequestsOnly (keys : Set S.Key) : Task S α → Prop
  | done (a) : RequestsOnly keys (done a)
  | request {ks next} (hks : ∀ k ∈ ks, k ∈ keys) (h : ∀ vs, RequestsOnly keys (next vs)) :
      RequestsOnly keys (request ks next)
  | isCancelled {next} (h : ∀ b, RequestsOnly keys (next b)) : RequestsOnly keys (isCancelled next)
  | cancel {next} (h : RequestsOnly keys next) : RequestsOnly keys (cancel next)
  | observe {o next} (h : ∀ o, RequestsOnly keys (next o)) : RequestsOnly keys (observe o next)
  | perform {effect next} (h : RequestsOnly keys next) : RequestsOnly keys (perform effect next)
  | log {entry next} (h : RequestsOnly keys next) : RequestsOnly keys (log entry next)
  | nested {k next} (h : ∀ r, RequestsOnly keys (next r)) : RequestsOnly keys (nested k next)
  | commit {cs next} (h : RequestsOnly keys next) : RequestsOnly keys (commit cs next)

section Closed

variable {keys : Set S.Key}

theorem Control.Step.requestsOnly {c c' : Control S α} {r r' : Running S}
    (h : c.Step beside r c' r') (hc : c.rest.RequestsOnly keys) (hr : ∀ k ∈ r.deps, k ∈ keys) :
    c'.rest.RequestsOnly keys ∧ ∀ k ∈ r'.deps, k ∈ keys := by
  cases h with
  | refuse =>
      cases hc with
      | request _ hnext => exact ⟨hnext _, hr⟩
  | ask => exact ⟨hc, hr⟩
  | before => exact ⟨hc, by rwa [Running.notify_deps]⟩
  | read =>
      cases hc with
      | request hks hnext =>
        refine ⟨hnext _, fun k hk => ?_⟩
        rcases Listing.mem_addAll.mp hk with hk | hk
        · exact hr k hk
        · exact hks k hk
  | after => exact ⟨hc, by rwa [Running.notify_deps]⟩
  | isCancelled =>
      cases hc with
      | isCancelled hnext => exact ⟨hnext _, hr⟩
  | cancel =>
      cases hc with
      | cancel hnext => exact ⟨hnext, hr⟩
  | observe =>
      cases hc with
      | observe hnext => exact ⟨hnext _, hr⟩
  | perform =>
      cases hc with
      | perform hnext => exact ⟨hnext, hr⟩
  | log =>
      cases hc with
      | log hnext => exact ⟨hnext, hr⟩
  | nested =>
      cases hc with
      | nested hnext => exact ⟨hnext _, hr⟩
  | commit =>
      cases hc with
      | commit hnext => exact ⟨hnext, hr⟩

/-- If the key is among the given ones, so is what its task requests. -/
def Slot.Closed (keys : Set S.Key) : Slot S → Prop
  | queued _ => True
  | taken w => w.key ∈ keys → w.control.rest.RequestsOnly keys ∧ ∀ k ∈ w.deps, k ∈ keys
  | ended e => e.key ∈ keys → ∀ k ∈ e.requested, k ∈ keys

theorem Round.Step.closed {x y : Round S} (hkeys : ∀ k ∈ keys, (compute k).RequestsOnly keys)
    (hstep : x.Step compute beside threads y) (hx : ∀ slot ∈ x.slots, slot.Closed keys) :
    ∀ slot ∈ y.slots, slot.Closed keys := by
  cases hstep with
  | take xs k ys s => exact Slot.forall_replace hx fun _ hk => ⟨hkeys k hk, fun _ hl => nomatch hl⟩
  | work xs w ys s c r hcontrol =>
      exact Slot.forall_replace hx fun hw hk => hcontrol.requestsOnly (hw hk).1 (hw hk).2
  | finish xs w ys s a => exact Slot.forall_replace hx fun hw hk => (hw hk).2

/-- Whatever the request has run or is running, as slots. -/
def Request.slots : Request S → List (Slot S)
  | planned _ ran _ => ran.map .ended
  | running _ ran x => ran.map .ended ++ x.slots
  | ended ran _ _ => ran.map .ended

theorem Request.Reaches.closed {roots : List S.Key} {s : Session S} {x : Request S}
    (hkeys : ∀ k ∈ keys, (compute k).RequestsOnly keys)
    (h : (s.request roots).Reaches compute beside threads keepGoing x) :
    ∀ slot ∈ x.slots, slot.Closed keys := by
  induction h with
  | refl => exact fun slot hslot => nomatch hslot
  | tail _ hstep ih =>
      rcases hstep with hstep | hmeanwhile
      · cases hstep with
        | halt => exact ih
        | begin c c' ran t frontier hc =>
            refine List.forall_mem_append.mpr ⟨ih, fun slot hslot => ?_⟩
            obtain ⟨k, -, rfl⟩ := List.mem_map.mp hslot
            exact trivial
        | work c ran x y hround =>
            obtain ⟨hran, hx⟩ := List.forall_mem_append.mp ih
            exact List.forall_mem_append.mpr ⟨hran, hround.closed hkeys hx⟩
        | settle => simpa [Request.slots] using ih
        | fail => simpa [Request.slots] using ih
      · cases hmeanwhile <;> exact ih

/-- Keys whose tasks request keys among them only are all that is demanded. -/
theorem Session.demanded_subset {roots : List S.Key} (hroots : ∀ k ∈ roots, k ∈ keys)
    (hkeys : ∀ k ∈ keys, (compute k).RequestsOnly keys) (s : Session S) :
    s.demanded compute beside threads keepGoing roots ⊆ keys := by
  rintro k ⟨x, hx, hdemanded⟩
  have hclosed := hx.closed hkeys
  induction hdemanded with
  | root hk => exact hroots _ hk
  | @request e l he _ hl ih =>
      have hslot : Slot.ended e ∈ x.slots := by
        cases x with
        | planned c ran t => exact List.mem_map_of_mem he
        | running c ran x => exact List.mem_append_left _ (List.mem_map_of_mem he)
        | ended ran result t => exact List.mem_map_of_mem he
      exact hclosed _ hslot ih l hl

end Closed

/-! ### Few restarts -/

namespace Session

/-- However a request goes on, it runs so many trials at most and makes only finitely many steps.
There is a step that it can make, unless it has ended or a nested request is not served. -/
structure EndsWithin (compute : Computation S) (beside : Beside S) (threads : Nat)
    (keepGoing : Bool) (roots : List S.Key) (trials : Nat) (s : Session S) : Prop where
  trials : ∀ x, (s.request roots).Reaches compute beside threads keepGoing x →
    x.ran.length ≤ trials
  finite : Acc (Request.Next compute beside threads keepGoing) (s.request roots)
  live : ∀ x, (s.request roots).Reaches compute beside threads keepGoing x →
    (∃ ran result t, x = .ended ran result t) ∨ x.Unserved beside ∨
      ∃ y, x.Step compute beside threads keepGoing y

/-- If nested requests are served, the request can be led to its end. -/
theorem EndsWithin.exists_ended {roots : List S.Key} {trials : Nat} {s : Session S}
    (h : s.EndsWithin compute beside threads keepGoing roots trials)
    (served : ∀ x, (s.request roots).Reaches compute beside threads keepGoing x →
      ¬ x.Unserved beside) :
    ∃ ran result t, (s.request roots).Reaches compute beside threads keepGoing
      (.ended ran result t) := by
  have hfrom : ∀ x, Acc (Request.Next compute beside threads keepGoing) x →
      (s.request roots).Reaches compute beside threads keepGoing x →
      ∃ ran result t, (s.request roots).Reaches compute beside threads keepGoing
        (.ended ran result t) := by
    intro x hacc hx
    induction hacc with
    | intro x _ ih =>
        rcases h.live x hx with ⟨ran, result, t, rfl⟩ | hunserved | ⟨y, hstep⟩
        · exact ⟨ran, result, t, hx⟩
        · exact absurd hunserved (served x hx)
        · exact ih y ⟨x, .refl, hstep⟩ (hx.tail (.inl hstep))
  exact hfrom _ h.finite .refl

/-- The engine's own request is over after so many rounds, and it comes to the same if it may run
more. -/
structure EndsBy (compute : Computation S) (bounds : Bounds) (keepGoing : Bool)
    (roots : List S.Key) (rounds : Nat) (s : Session S) : Prop where
  ended : (s.runUpTo compute bounds keepGoing roots rounds).1 ≠ .error .exhausted
  stable : ∀ more ≥ rounds,
    s.runUpTo compute bounds keepGoing roots more =
        s.runUpTo compute bounds keepGoing roots rounds ∧
      s.trialsUpTo compute bounds keepGoing roots more =
        s.trialsUpTo compute bounds keepGoing roots rounds

variable {roots : List S.Key} {s : Session S}

theorem length_ran_le (hcompute : compute.WaitsAtRequests) (hbeside : beside.Grows)
    (finite : (s.demanded compute beside threads keepGoing roots).Finite) {x : Request S}
    (hx : (s.request roots).Reaches compute beside threads keepGoing x) :
    x.ran.length ≤ s.mostTrials compute beside threads keepGoing roots := by
  rw [mostTrials, Set.ncard_eq_toFinset_card _ finite]
  exact (hx.justified hcompute hbeside).warranted.length_le fun k hk =>
    finite.mem_toFinset.mpr ⟨x, hx, hk⟩

theorem endsWithin (hcompute : compute.WaitsAtRequests) (hbeside : beside.Grows)
    (finite : (s.demanded compute beside threads keepGoing roots).Finite) :
    s.EndsWithin compute beside threads keepGoing roots
      (s.mostTrials compute beside threads keepGoing roots) :=
  have htrials := fun x hx => length_ran_le (x := x) hcompute hbeside finite hx
  ⟨htrials, Request.acc_of_reaches hcompute hbeside htrials .refl,
    fun x _ => x.exists_step beside⟩

theorem exists_reaches_trialsUpTo (compute : Computation S) (bounds : Bounds) (keepGoing : Bool)
    (roots : List S.Key) (rounds : Nat) (s : Session S) :
    ∃ x, (s.request roots).Reaches compute (.nothing (nestWithin compute bounds)) 1 keepGoing x ∧
      x.ran = s.trialsUpTo compute bounds keepGoing roots rounds :=
  Request.exists_reaches_trials (Beside.nothing_serves _) rounds (s.schedule roots) [] s

theorem endsBy (hcompute : compute.WaitsAtRequests) (bounds : Bounds)
    (finite : (s.demanded compute (.nothing (nestWithin compute bounds)) 1 keepGoing roots).Finite)
    {rounds : Nat}
    (hrounds : s.mostTrials compute (.nothing (nestWithin compute bounds)) 1 keepGoing roots <
      rounds) :
    s.EndsBy compute bounds keepGoing roots rounds := by
  have hgrows := Beside.nothing_grows (nestWithin_grows hcompute bounds)
  have hended : (s.runUpTo compute bounds keepGoing roots rounds).1 ≠ .error .exhausted := by
    intro hexhausted
    obtain ⟨x, hx, hran⟩ := s.exists_reaches_trialsUpTo compute bounds keepGoing roots rounds
    have hlength := length_ran_le hcompute hgrows finite hx
    rw [hran] at hlength
    exact absurd ((rounds_le_of_exhausted rounds hexhausted).trans hlength)
      (Nat.not_le.mpr hrounds)
  exact ⟨hended, fun more hmore => runRounds_stable hmore hended⟩

/-- Whatever the state of an engine and the roots, however many workers a request has, in whatever
order they act and whatever goes on beside them: if its tasks are not ready only when they miss what
they request, the request runs what is demanded, and that no more often than needed. If the keys
that it may demand are finitely many, it comes to an end. The engine's own request, which has one
worker, is over after a number of rounds that these keys bound. -/
theorem ends_with_few_restarts (s : Session S) {compute : Computation S}
    (h : compute.WaitsAtRequests) (keepGoing : Bool) (roots : List S.Key) :
    (∀ beside : Beside S, beside.Grows → ∀ threads,
      (∀ x, (s.request roots).Reaches compute beside threads keepGoing x →
        s.Thrifty roots x.ran) ∧
      ((s.demanded compute beside threads keepGoing roots).Finite →
        s.EndsWithin compute beside threads keepGoing roots
          (s.mostTrials compute beside threads keepGoing roots))) ∧
    ∀ bounds,
      (∀ rounds, s.Thrifty roots (s.trialsUpTo compute bounds keepGoing roots rounds)) ∧
      ((s.demanded compute (.nothing (nestWithin compute bounds)) 1 keepGoing roots).Finite →
        ∀ rounds > s.mostTrials compute (.nothing (nestWithin compute bounds)) 1 keepGoing roots,
          s.EndsBy compute bounds keepGoing roots rounds) := by
  have hthrifty : ∀ beside : Beside S, beside.Grows → ∀ threads x,
      (s.request roots).Reaches compute beside threads keepGoing x → s.Thrifty roots x.ran :=
    fun beside hbeside threads x hx => (hx.justified h hbeside).warranted.thrifty
  refine ⟨fun beside hbeside threads => ⟨hthrifty beside hbeside threads,
    fun finite => endsWithin h hbeside finite⟩, fun bounds => ⟨fun rounds => ?_,
    fun finite rounds hrounds => endsBy h bounds finite hrounds⟩⟩
  obtain ⟨x, hx, hran⟩ := s.exists_reaches_trialsUpTo compute bounds keepGoing roots rounds
  rw [← hran]
  exact hthrifty _ (Beside.nothing_grows (nestWithin_grows h bounds)) 1 x hx

end Session

namespace Script

theorem refusing_waitsAtRequests : refusing.WaitsAtRequests := by
  intro k hk
  cases k with
  | base name => cases hk
  | node name => exact .done fun _ he => by cases he
  | mirror name =>
      refine .request (fun vs => ?_) fun e => .done fun e' he' => ?_
      · cases vs
        exact .done fun _ he => by cases he
      · cases he'
        exact List.mem_cons_self

/-- Two mirrors and their nodes. -/
def mirrored : Finset NodeKey :=
  {NodeKey.mirror "x", NodeKey.mirror "y", NodeKey.node "x", NodeKey.node "y"}

theorem demanded_refusing (beside : Beside space) (threads : Nat) (s : Session space) :
    s.demanded refusing beside threads true [NodeKey.mirror "x", NodeKey.mirror "y"] ⊆
      (mirrored : Set NodeKey) := by
  have hmirror : ∀ name, NodeKey.node name ∈ mirrored →
      (refusing (NodeKey.mirror name)).RequestsOnly (mirrored : Set NodeKey) := by
    intro name hname
    refine .request (fun k hk => List.mem_singleton.mp hk ▸ hname) fun vs => ?_
    cases vs with
    | error e => exact .done _
    | ok vs =>
        cases vs
        exact .done _
  have hroots : ∀ k ∈ [NodeKey.mirror "x", NodeKey.mirror "y"], k ∈ mirrored := by decide
  have hkeys : ∀ k ∈ mirrored, (refusing k).RequestsOnly (mirrored : Set NodeKey) := by
    intro k hk
    simp only [mirrored, Finset.mem_insert, Finset.mem_singleton] at hk
    rcases hk with rfl | rfl | rfl | rfl
    · exact hmirror "x" (by decide)
    · exact hmirror "y" (by decide)
    · exact .done _
    · exact .done _
  exact Session.demanded_subset hroots hkeys s

/-- Both mirrors are run twice, since their first runs miss the nodes. -/
theorem ends_with_few_restarts_refusing :
    (∃ trials ≤ 20, blank.EndsWithin refusing (.nothing (nestWithin refusing {})) 2 true
      [NodeKey.mirror "x", NodeKey.mirror "y"] trials) ∧
    blank.EndsBy refusing {} true [NodeKey.mirror "x", NodeKey.mirror "y"] 21 ∧
      (blank.trialsUpTo refusing {} true [NodeKey.mirror "x", NodeKey.mirror "y"] 21).map
          Trial.key =
        [NodeKey.mirror "x", .mirror "y", .node "x", .node "y", .mirror "x", .mirror "y"] := by
  have hcard : ∀ keys : Set NodeKey, keys ⊆ mirrored → keys.ncard * (keys.ncard + 1) ≤ 20 := by
    intro keys hkeys
    have hle := Set.ncard_le_ncard hkeys mirrored.finite_toSet
    rw [Set.ncard_coe_finset] at hle
    exact Nat.mul_le_mul hle (Nat.add_le_add_right hle 1)
  have hall := blank.ends_with_few_restarts refusing_waitsAtRequests true
    [NodeKey.mirror "x", NodeKey.mirror "y"]
  have hgrows := Beside.nothing_grows (nestWithin_grows refusing_waitsAtRequests {})
  have hmany := demanded_refusing (.nothing (nestWithin refusing {})) 2 blank
  have hone := demanded_refusing (.nothing (nestWithin refusing {})) 1 blank
  exact ⟨⟨_, hcard _ hmany, (hall.1 _ hgrows 2).2 (mirrored.finite_toSet.subset hmany)⟩,
    (hall.2 {}).2 (mirrored.finite_toSet.subset hone) 21 (Nat.lt_succ_of_le (hcard _ hone)), rfl⟩

end Script
end BuildAnalysis.Engine
