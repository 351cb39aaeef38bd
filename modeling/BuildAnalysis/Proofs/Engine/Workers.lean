import Mathlib.Logic.Hydra
import Mathlib.Logic.Relation
import BuildAnalysis.Proofs.Engine.Trial

/-!
# Rounds on several workers

What others do lets the session of a task grow, as what the task does itself. So a task that is run
among others ends as it might have ended alone: its trial is fair. Every step of a worker takes some
task further, which happens finitely often in a round, and unless all its tasks have ended some
worker can go on. A worker that is alone runs the keys of a round one after the other.
-/
namespace BuildAnalysis.Engine

open Relation

variable {S : KeySpace} {α : Type} {beside : Beside S}

/-- What goes on beside the workers lets the session grow; in particular nothing is committed. -/
structure Beside.Grows (beside : Beside S) : Prop where
  meanwhile : ∀ {s t}, beside.meanwhile s t → s.Grows t
  serves : ∀ {k s served}, beside.serves k s served → s.Grows served.2

theorem Beside.nothing_grows {nest : Nest S} (h : nest.Grows) : (Beside.nothing nest).Grows where
  meanwhile hnone := hnone.elim
  serves hserved := by
    obtain rfl := hserved
    exact h _ _

/-! ### Fair trials -/

section Fair

variable {told : List Suspension} {r r' : Running S}

/-- The task suspends only in one of the given ways or as it has been told to. -/
def Task.SuspendsIn (told : List Suspension) (r : Running S) (t : Task S (Except Suspension α)) :
    Prop := ∃ told', t.Suspends told' ∧ ∀ e ∈ told', e ∈ told ∨ r.Tells e

theorem Task.SuspendsIn.follows {t : Task S (Except Suspension α)} (h : t.SuspendsIn told r)
    (hr : r.Follows r') : t.SuspendsIn told r' := by
  obtain ⟨told', ht, htold⟩ := h
  exact ⟨told', ht, fun e he => (htold e he).imp_right hr.tells⟩

/-- What is left of a task; a request that has no answer yet is left as a whole. -/
def Control.rest : Control S α → Task S α
  | task t => t
  | asking ks next => .request ks next
  | reading ks next => .request ks next
  | answered t => t

namespace Control.Step

variable {c c' : Control S (Except Suspension α)}

theorem follows (h : c.Step beside r c' r') (hbeside : beside.Grows)
    (hc : c.rest.SuspendsIn told r) : r.Follows r' := by
  cases h with
  | refuse => exact r.follows_session (.refl _)
  | ask => exact r.follows_session (.refl _)
  | before => exact r.follows_notify _
  | read ks => exact r.follows_record ks
  | after => exact r.follows_notify _
  | isCancelled => exact r.follows_session (.refl _)
  | cancel => exact r.follows_session r.session.grows_cancelled
  | observe o => exact r.follows_observer o
  | perform e => exact r.follows_session (r.session.grows_perform e)
  | log entry => exact r.follows_session (r.session.grows_log entry)
  | nested k next r served hserved => exact r.follows_session (hbeside.serves hserved)
  | commit changes t =>
      obtain ⟨_, ht, _⟩ := hc
      cases ht

theorem suspendsIn (h : c.Step beside r c' r') (hbeside : beside.Grows)
    (hc : c.rest.SuspendsIn told r) : c'.rest.SuspendsIn told r' := by
  have hfollows := h.follows hbeside hc
  obtain ⟨told', ht, htold⟩ := hc
  have hkept : ∀ e ∈ told', e ∈ told ∨ r'.Tells e :=
    fun e he => (htold e he).imp_right hfollows.tells
  cases h with
  | refuse ks next r hcancelled =>
      cases ht with
      | request _ error =>
        exact ⟨_, error .cancelled, List.forall_mem_cons.mpr ⟨.inr hcancelled, hkept⟩⟩
  | ask => exact ⟨told', ht, hkept⟩
  | before => exact ⟨told', ht, hkept⟩
  | read ks next r =>
      cases ht with
      | request ok error =>
        cases hvs : r.session.store.values? ks with
        | some vs =>
            have hanswer : r.answer ks = .ok vs := by rw [Running.answer, hvs]
            rw [hanswer]
            exact ⟨told', ok vs, hkept⟩
        | none =>
            have hanswer : r.answer ks = .error .notReady := by rw [Running.answer, hvs]
            rw [hanswer]
            exact ⟨_, error .notReady,
              List.forall_mem_cons.mpr ⟨.inr (Running.tells_record hvs), hkept⟩⟩
  | after => exact ⟨told', ht, hkept⟩
  | isCancelled =>
      cases ht with
      | isCancelled ht => exact ⟨told', ht _, hkept⟩
  | cancel =>
      cases ht with
      | cancel ht => exact ⟨told', ht, hkept⟩
  | observe =>
      cases ht with
      | observe ht => exact ⟨told', ht _, hkept⟩
  | perform =>
      cases ht with
      | perform ht => exact ⟨told', ht, hkept⟩
  | log =>
      cases ht with
      | log ht => exact ⟨told', ht, hkept⟩
  | nested =>
      cases ht with
      | nested ht => exact ⟨told', ht _, hkept⟩
  | commit => cases ht

end Control.Step

structure Worker.Fair (told : List Suspension) (w : Worker S) (s : Session S) : Prop where
  follows : Running.Follows { session := w.before } (w.running s)
  suspends : w.control.rest.SuspendsIn told (w.running s)

namespace Worker.Fair

variable {w : Worker S} {s t : Session S}

theorem start {k : S.Key} {compute : Computation S} (h : (compute k).Suspends told)
    (s : Session S) :
    Worker.Fair told { key := k, before := s, control := .task (compute k) } s where
  follows := Running.follows_session _ (.refl s)
  suspends := ⟨told, h, fun _ he => .inl he⟩

/-- What others do lets the session grow. -/
theorem grows (h : w.Fair told s) (hst : s.Grows t) : w.Fair told t :=
  have hfollows : (w.running s).Follows (w.running t) := (w.running s).follows_session hst
  ⟨h.follows.trans hfollows, h.suspends.follows hfollows⟩

variable {c : Control S (Except Suspension (S.Value w.key))}

theorem step_grows (h : w.Fair told s) (hbeside : beside.Grows)
    (hstep : w.control.Step beside (w.running s) c r) : s.Grows r.session :=
  (hstep.follows hbeside h.suspends).grows

theorem goOn (h : w.Fair told s) (hbeside : beside.Grows)
    (hstep : w.control.Step beside (w.running s) c r) : (w.goOn c r).Fair told r.session :=
  ⟨h.follows.trans (hstep.follows hbeside h.suspends), hstep.suspendsIn hbeside h.suspends⟩

/-- A task that has come to a result makes a fair trial. -/
theorem finish (h : w.Fair told s) {a : Except Suspension (S.Value w.key)}
    (hdone : w.control = .task (.done a)) : (w.finish a s).Fair told := by
  have hends : (w.finish a s).Ends a (w.running s) := by
    refine ⟨rfl, ?_⟩
    cases a with
    | ok v => exact ⟨rfl, rfl⟩
    | error e => cases e <;> exact ⟨rfl, rfl⟩
  refine ⟨a, w.running s, hends, h.follows, fun e he => ?_⟩
  obtain ⟨told', ht, htold⟩ := h.suspends
  rw [hdone] at ht
  cases ht with
  | done herror => exact htold e (herror e he)

end Worker.Fair

/-- The key of a round is computed by a task that has been fair since the round began. -/
def Slot.Fair (told : List Suspension) (start s : Session S) : Slot S → Prop
  | queued k => S.isInjected k = false
  | taken w => start.Grows w.before ∧ w.Fair told s
  | ended e => start.Grows e.before ∧ e.Fair told ∧ e.after.Grows s

theorem Slot.Fair.grows {start s t : Session S} {x : Slot S} (h : x.Fair told start s)
    (hst : s.Grows t) : x.Fair told start t := by
  cases x with
  | queued k => exact h
  | taken w => exact ⟨h.1, h.2.grows hst⟩
  | ended e => exact ⟨h.1, h.2.1, h.2.2.trans hst⟩

/-- A slot is replaced by one of which the same holds. -/
theorem Slot.forall_replace {p : Slot S → Prop} {xs ys : List (Slot S)} {a b : Slot S}
    (h : ∀ x ∈ xs ++ a :: ys, p x) (hab : p a → p b) : ∀ x ∈ xs ++ b :: ys, p x := by
  obtain ⟨hxs, ha, hys⟩ := List.forall_mem_append.mp h |>.imp_right List.forall_mem_cons.mp
  exact List.forall_mem_append.mpr ⟨hxs, List.forall_mem_cons.mpr ⟨hab ha, hys⟩⟩

/-- The round has been fair since it began. -/
structure Round.Fair (told : List Suspension) (start : Session S) (x : Round S) : Prop where
  grows : start.Grows x.session
  slots : ∀ slot ∈ x.slots, slot.Fair told start x.session

namespace Round

variable {start s t : Session S} {compute : Computation S} {threads : Nat} {x y : Round S}

theorem Fair.begin {ks : List S.Key} (hks : ∀ k ∈ ks, S.isInjected k = false)
    (h : start.Grows s) : Fair told start ⟨ks.map .queued, s⟩ := by
  refine ⟨h, fun slot hslot => ?_⟩
  obtain ⟨k, hk, rfl⟩ := List.mem_map.mp hslot
  exact hks k hk

theorem Fair.onSession {xs : List (Slot S)} (h : Fair told start ⟨xs, s⟩) (hst : s.Grows t) :
    Fair told start ⟨xs, t⟩ :=
  ⟨h.grows.trans hst, fun slot hslot => (h.slots slot hslot).grows hst⟩

theorem Fair.replace {xs ys : List (Slot S)} {a b : Slot S}
    (h : Fair told start ⟨xs ++ a :: ys, s⟩) (hst : s.Grows t) (hb : b.Fair told start t) :
    Fair told start ⟨xs ++ b :: ys, t⟩ := by
  obtain ⟨hgrows, hslots⟩ := h.onSession hst
  exact ⟨hgrows, Slot.forall_replace hslots fun _ => hb⟩

theorem Fair.slot {xs ys : List (Slot S)} {a : Slot S}
    (h : Fair told start ⟨xs ++ a :: ys, s⟩) : a.Fair told start s :=
  h.slots a (List.mem_append_right _ List.mem_cons_self)

theorem Fair.trials {es : List (Trial S)} (h : Fair told start ⟨es.map .ended, s⟩) :
    ∀ e ∈ es, start.Grows e.before ∧ e.Fair told ∧ e.after.Grows s :=
  fun _ he => h.slots _ (List.mem_map_of_mem he)

/-- Whatever a worker does keeps the round fair. -/
theorem Step.fair (h : ∀ k, S.isInjected k = false → (compute k).Suspends told)
    (hbeside : beside.Grows) (hstep : x.Step compute beside threads y) (hx : x.Fair told start) :
    y.Fair told start ∧ x.session.Grows y.session := by
  cases hstep with
  | take xs k ys s =>
      have hk : S.isInjected k = false := hx.slot
      exact ⟨hx.replace (.refl s) ⟨hx.grows, .start (h k hk) s⟩, .refl s⟩
  | work xs w ys s c r hcontrol =>
      obtain ⟨hbefore, hw⟩ : start.Grows w.before ∧ w.Fair told s := hx.slot
      have hgrows := hw.step_grows hbeside hcontrol
      exact ⟨hx.replace hgrows ⟨hbefore, hw.goOn hbeside hcontrol⟩, hgrows⟩
  | finish xs w ys s a hdone =>
      obtain ⟨hbefore, hw⟩ : start.Grows w.before ∧ w.Fair told s := hx.slot
      have htrial := hw.finish hdone
      have hgrows : s.Grows (w.finish a s).after := by
        cases a with
        | ok v => exact ⟨Store.within_insertComputed v w.deps, rfl, id⟩
        | error e => cases e <;> exact .refl s
      exact ⟨hx.replace hgrows ⟨hbefore, htrial, .refl _⟩, hgrows⟩

theorem Step.keys (hstep : x.Step compute beside threads y) :
    y.slots.map Slot.key = x.slots.map Slot.key := by
  cases hstep <;> simp only [List.map_append, List.map_cons] <;> rfl

end Round

end Fair

/-! ### Rounds come to an end -/

namespace Control

/-- The task may be this far next. -/
def Next (c' c : Control S α) : Prop :=
  ∃ (beside : Beside S) (r r' : Running S), c.Step beside r c' r'

theorem acc_answered {t : Task S α} (h : Acc Next (.task t)) : Acc Next (.answered t) := by
  refine ⟨_, ?_⟩
  rintro _ ⟨_, _, _, hstep⟩
  cases hstep
  exact h

theorem acc_reading {ks : List S.Key} {next : Except Suspension (Values S ks) → Task S α}
    (h : ∀ a, Acc Next (.task (next a))) : Acc Next (.reading ks next) := by
  refine ⟨_, ?_⟩
  rintro _ ⟨_, _, _, hstep⟩
  cases hstep
  exact acc_answered (h _)

theorem acc_asking {ks : List S.Key} {next : Except Suspension (Values S ks) → Task S α}
    (h : ∀ a, Acc Next (.task (next a))) : Acc Next (.asking ks next) := by
  refine ⟨_, ?_⟩
  rintro _ ⟨_, _, _, hstep⟩
  cases hstep
  exact acc_reading h

/-- A task is a tree, and with each step it is further down. -/
theorem acc_task (t : Task S α) : Acc Next (.task t) := by
  induction t with
  | done a => exact ⟨_, fun _ ⟨_, _, _, hstep⟩ => nomatch hstep⟩
  | request ks next ih =>
      refine ⟨_, ?_⟩
      rintro _ ⟨_, _, _, hstep⟩
      cases hstep
      · exact ih _
      · exact acc_asking ih
  | isCancelled next ih | observe o next ih | nested k next ih =>
      refine ⟨_, ?_⟩
      rintro _ ⟨_, _, _, hstep⟩
      cases hstep
      exact ih _
  | cancel t ih | perform e t ih | log entry t ih | commit changes t ih =>
      refine ⟨_, ?_⟩
      rintro _ ⟨_, _, _, hstep⟩
      cases hstep
      exact ih

theorem wellFounded_next : WellFounded (Next (S := S) (α := α)) := by
  refine ⟨fun c => ?_⟩
  cases c with
  | task t => exact acc_task t
  | asking ks next => exact acc_asking fun a => acc_task _
  | reading ks next => exact acc_reading fun a => acc_task _
  | answered t => exact acc_answered (acc_task t)

/-- The task is about to make a nested request that nobody serves. -/
def Unserved (beside : Beside S) (s : Session S) (c : Control S α) : Prop :=
  ∃ k next, c = .task (.nested k next) ∧ ∀ served, ¬ beside.serves k s served

theorem exists_step (beside : Beside S) (c : Control S α) (r : Running S) :
    (∃ a, c = .task (.done a)) ∨ c.Unserved beside r.session ∨
      ∃ c' r', c.Step beside r c' r' := by
  cases c with
  | asking ks next => exact .inr (.inr ⟨_, _, .before ks next r⟩)
  | reading ks next => exact .inr (.inr ⟨_, _, .read ks next r⟩)
  | answered t => exact .inr (.inr ⟨_, _, .after t r⟩)
  | task t =>
      cases t with
      | done a => exact .inl ⟨a, rfl⟩
      | request ks next =>
          by_cases live : r.session.isCancelled = false
          · exact .inr (.inr ⟨_, _, .ask ks next r live⟩)
          · exact .inr (.inr ⟨_, _, .refuse ks next r (by simpa using live)⟩)
      | isCancelled next => exact .inr (.inr ⟨_, _, .isCancelled next r⟩)
      | cancel t => exact .inr (.inr ⟨_, _, .cancel t r⟩)
      | observe o next => exact .inr (.inr ⟨_, _, .observe o next r⟩)
      | perform e t => exact .inr (.inr ⟨_, _, .perform e t r⟩)
      | log entry t => exact .inr (.inr ⟨_, _, .log entry t r⟩)
      | nested k next =>
          by_cases hserved : ∃ served, beside.serves k r.session served
          · obtain ⟨served, hserved⟩ := hserved
            exact .inr (.inr ⟨_, _, .nested k next r served hserved⟩)
          · exact .inr (.inl ⟨k, next, rfl, not_exists.mp hserved⟩)
      | commit changes t => exact .inr (.inr ⟨_, _, .commit changes t r⟩)

end Control

namespace Slot

inductive Next : Slot S → Slot S → Prop
  | take (w : Worker S) : Next (.taken w) (.queued w.key)
  | work (w : Worker S) (c r) (h : Control.Next c w.control) : Next (.taken (w.goOn c r)) (.taken w)
  | finish (w : Worker S) (a s) : Next (.ended (w.finish a s)) (.taken w)

theorem acc_ended (e : Trial S) : Acc Next (.ended e) := ⟨_, fun _ h => nomatch h⟩

theorem acc_taken {k : S.Key} (c : Control S (Except Suspension (S.Value k))) (before : Session S)
    (o : Option S.Observer) (deps missing : List S.Key) :
    Acc Next (.taken ⟨k, before, c, o, deps, missing⟩) := by
  induction c using Control.wellFounded_next.induction generalizing o deps missing with
  | _ c ih =>
      refine ⟨_, fun y hy => ?_⟩
      cases hy with
      | work w c' r hc => exact ih c' hc r.observer r.deps r.missing
      | finish => exact acc_ended _

theorem wellFounded_next : WellFounded (Next (S := S)) := by
  refine ⟨fun x => ?_⟩
  cases x with
  | queued k =>
      refine ⟨_, fun y hy => ?_⟩
      cases hy with
      | take w => exact acc_taken _ _ _ _ _
  | taken w => exact acc_taken w.control w.before w.observer w.deps w.missing
  | ended e => exact acc_ended e

end Slot

namespace Round

variable {compute : Computation S} {threads : Nat} {x y : Round S}

/-- The keys of a round may be this far next, one of them further than now. -/
def Further (ys xs : List (Slot S)) : Prop :=
  CutExpand Slot.Next (ys : Multiset (Slot S)) (xs : Multiset (Slot S))

theorem wellFounded_further : WellFounded (Further (S := S)) :=
  have : Std.Irrefl (Slot.Next (S := S)) := Slot.wellFounded_next.irrefl
  InvImage.wf _ Slot.wellFounded_next.cutExpand

theorem further_of_next {a b : Slot S} (h : Slot.Next b a) (xs ys : List (Slot S)) :
    Further (xs ++ b :: ys) (xs ++ a :: ys) := by
  have hsplit : ∀ c : Slot S, ((xs ++ c :: ys : List (Slot S)) : Multiset (Slot S)) =
      (↑(xs ++ ys) : Multiset (Slot S)) + {c} := fun c => by
    rw [← Multiset.coe_singleton, Multiset.coe_add, Multiset.coe_eq_coe, List.append_assoc]
    exact (List.perm_append_singleton c ys).symm.append_left xs
  rw [Further, hsplit, hsplit]
  exact cutExpand_add_single _ h

/-- Every step of a worker takes a key further. -/
theorem Step.further (h : x.Step compute beside threads y) : Further y.slots x.slots := by
  cases h with
  | take xs k ys s => exact further_of_next (.take _) xs ys
  | work xs w ys s c r hcontrol => exact further_of_next (.work w c r ⟨_, _, _, hcontrol⟩) xs ys
  | finish xs w ys s a => exact further_of_next (.finish w a s) xs ys

theorem exists_trials {xs : List (Slot S)} (h : ∀ x ∈ xs, x.isQueued = false ∧ x.isTaken = false) :
    ∃ es : List (Trial S), xs = es.map .ended := by
  induction xs with
  | nil => exact ⟨[], rfl⟩
  | cons x xs ih =>
      obtain ⟨⟨hqueued, htaken⟩, hxs⟩ := List.forall_mem_cons.mp h
      obtain ⟨es, rfl⟩ := ih hxs
      cases x with
      | queued k => cases hqueued
      | taken w => cases htaken
      | ended e => exact ⟨e :: es, rfl⟩

/-- Some worker of the round is about to make a nested request that nobody serves. -/
def Unserved (beside : Beside S) (x : Round S) : Prop :=
  ∃ w, .taken w ∈ x.slots ∧ w.control.Unserved beside x.session

/-- A round goes on until all its keys have ended. -/
theorem exists_step (beside : Beside S) (x : Round S) :
    (∃ es : List (Trial S), x.slots = es.map .ended) ∨ x.Unserved beside ∨
      ∃ y, x.Step compute beside threads y := by
  obtain ⟨xs, s⟩ := x
  cases htaken : xs.find? Slot.isTaken with
  | some x =>
      obtain ⟨hx, as, bs, rfl, -⟩ := List.find?_eq_some_iff_append.mp htaken
      cases x with
      | queued k => cases hx
      | ended e => cases hx
      | taken w =>
          rcases Control.exists_step beside w.control (w.running s) with
            ⟨a, hdone⟩ | hunserved | ⟨c, r, hstep⟩
          · exact .inr (.inr ⟨_, .finish as w bs s a hdone⟩)
          · have hw : .taken w ∈ as ++ .taken w :: bs :=
              List.mem_append_right _ List.mem_cons_self
            exact .inr (.inl ⟨w, hw, hunserved⟩)
          · exact .inr (.inr ⟨_, .work as w bs s c r hstep⟩)
  | none =>
      have hnone := List.find?_eq_none.mp htaken
      cases hqueued : xs.find? Slot.isQueued with
      | some x =>
          obtain ⟨hx, as, bs, rfl, hfirst⟩ := List.find?_eq_some_iff_append.mp hqueued
          cases x with
          | taken w => cases hx
          | ended e => cases hx
          | queued k =>
              have hfree : (as ++ Slot.queued k :: bs).countP Slot.isTaken = 0 :=
                List.countP_eq_zero.mpr hnone
              refine .inr (.inr ⟨_, .take as k bs s (by simpa using hfirst) ?_⟩)
              rw [hfree, workers]
              omega
      | none =>
          have hall : ∀ x ∈ xs, x.isQueued = false ∧ x.isTaken = false := fun x hx =>
            ⟨by simpa using List.find?_eq_none.mp hqueued x hx, by simpa using hnone x hx⟩
          exact .inl (exists_trials hall)

end Round

/-- What may become of a request, whatever its workers do and whatever happens beside it. -/
def Request.Reaches (compute : Computation S) (beside : Beside S) (threads : Nat)
    (keepGoing : Bool) : Request S → Request S → Prop :=
  ReflTransGen fun x y => x.Step compute beside threads keepGoing y ∨ x.Meanwhile beside y

theorem Request.reaches_work {compute : Computation S} {threads : Nat} {x y : Round S}
    (h : ReflTransGen (Round.Step compute beside threads) x y) (keepGoing : Bool) (c : Schedule S)
    (ran : List (Trial S)) :
    Reaches compute beside threads keepGoing (.running c ran x) (.running c ran y) :=
  h.lift (Request.running c ran) fun x y hstep => .inl (.work c ran x y hstep)

end BuildAnalysis.Engine
