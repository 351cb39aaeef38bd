import BuildAnalysis.Proofs.Engine.Demand
import BuildAnalysis.Proofs.Engine.Suspension

/-!
# Runs that may be interrupted

A restartable task requests values, performs effects of a kind that does no harm when it is run
again, logs, observes its requests and looks at the cancellation; it suspends only at requests. Such
a task may be cancelled from outside anywhere on its way. Where exactly does not matter for what can
be said about it: a run of an interrupted task is a run of the task itself in which the cancellation
comes at some moment. Runs of bound tasks come apart into runs of their parts.
-/
namespace BuildAnalysis.Engine

variable {S : KeySpace} {α β : Type}

/-- The session may have been cancelled from outside meanwhile. -/
def Running.Meanwhile (r r' : Running S) : Prop :=
  r' = r ∨ r' = { r with session := { r.session with cancelled := true } }

namespace Task

/-- What a task that nothing but its requests suspends may do: its effects are of the given kind. -/
inductive Restartable (idle : S.Effect → Prop) :
    List Suspension → Task S (Except Suspension α) → Prop
  | done {told r} (h : ∀ e, r = .error e → e ∈ told) : Restartable idle told (done r)
  | request {told ks next} (ok : ∀ vs, Restartable idle told (next (.ok vs)))
      (error : ∀ e, Restartable idle (e :: told) (next (.error e))) :
      Restartable idle told (request ks next)
  | isCancelled {told next} (h : ∀ b, Restartable idle told (next b)) :
      Restartable idle told (isCancelled next)
  | observe {told o next} (h : ∀ o, Restartable idle told (next o)) :
      Restartable idle told (observe o next)
  | perform {told effect next} (he : idle effect) (h : Restartable idle told next) :
      Restartable idle told (perform effect next)
  | log {told entry next} (h : Restartable idle told next) : Restartable idle told (log entry next)

namespace Restartable

variable {idle idle' : S.Effect → Prop} {told told' : List Suspension}
  {t : Task S (Except Suspension α)}

theorem done_ok (a : α) : Restartable idle told (.done (.ok a)) := .done fun _ h => by cases h

theorem done_error (e : Suspension) :
    Restartable idle [e] (.done (.error e) : Task S (Except Suspension α)) := by
  refine .done fun e' h => ?_
  cases h
  exact List.mem_cons_self

theorem mono (h : Restartable idle told t) (hsub : told ⊆ told') : Restartable idle told' t := by
  induction h generalizing told' with
  | done hr => exact .done fun e he => hsub (hr e he)
  | request _ _ ihok iherror =>
      exact .request (fun vs => ihok vs hsub)
        fun e => iherror e (List.cons_subset_cons e hsub)
  | isCancelled _ ih => exact .isCancelled fun b => ih b hsub
  | observe _ ih => exact .observe fun o => ih o hsub
  | perform he _ ih => exact .perform he (ih hsub)
  | log _ ih => exact .log (ih hsub)

theorem imp (h : Restartable idle told t) (himp : ∀ e, idle e → idle' e) :
    Restartable idle' told t := by
  induction h with
  | done hr => exact .done hr
  | request _ _ ihok iherror => exact .request ihok iherror
  | isCancelled _ ih => exact .isCancelled ih
  | observe _ ih => exact .observe ih
  | perform he _ ih => exact .perform (himp _ he) ih
  | log _ ih => exact .log ih

theorem bind {f : Except Suspension α → Task S (Except Suspension β)} (h : Restartable idle told t)
    (ok : ∀ a, Restartable idle [] (f (.ok a))) (error : ∀ e, Restartable idle [e] (f (.error e))) :
    Restartable idle told (t.bind f) := by
  induction h with
  | @done told r hr =>
      cases r with
      | ok a => exact (ok a).mono (List.nil_subset _)
      | error e => exact (error e).mono (List.cons_subset.mpr ⟨hr e rfl, List.nil_subset _⟩)
  | request _ _ ihok iherror => exact .request ihok iherror
  | isCancelled _ ih => exact .isCancelled ih
  | observe _ ih => exact .observe ih
  | perform he _ ih => exact .perform he ih
  | log _ ih => exact .log ih

theorem uninterrupted_eq (h : Restartable idle told t) : t.uninterrupted = t := by
  induction h with
  | done => rfl
  | request _ _ ihok iherror =>
      simp only [uninterrupted]
      congr 1
      funext r
      cases r with
      | ok vs => exact ihok vs
      | error e => exact iherror e
  | isCancelled _ ih => simp only [uninterrupted, ih]
  | observe _ ih => simp only [uninterrupted, ih]
  | perform _ _ ih => simp only [uninterrupted, ih]
  | log _ ih => simp only [uninterrupted, ih]

end Restartable

theorem Restartable.suspends {idle : S.Effect → Prop} {told : List Suspension}
    {t : Task S (Except Suspension α)} (h : Restartable idle told t.uninterrupted) :
    t.Suspends told := by
  induction t generalizing told with
  | done a =>
      cases h with
      | done hr => exact .done hr
  | request ks next ih =>
      cases h with
      | request ok error => exact .request (fun vs => ih _ (ok vs)) fun e => ih _ (error e)
  | isCancelled next ih =>
      cases h with
      | isCancelled h => exact .isCancelled fun b => ih b (h b)
  | cancel next ih => exact .cancel (ih h)
  | observe o next ih =>
      cases h with
      | observe h => exact .observe fun o => ih o (h o)
  | perform e next ih =>
      cases h with
      | perform _ h => exact .perform (ih h)
  | log entry next ih =>
      cases h with
      | log h => exact .log (ih h)
  | nested k next ih => cases h
  | commit cs next ih => cases h

/-- A run of a task that computes nothing in transactions of its own and commits nothing, in which
the request may be cancelled from outside at any moment. -/
def RunsTo : Task S α → Running S → α → Running S → Prop
  | .done a, r, b, r' => b = a ∧ r.Meanwhile r'
  | .request ks next, r, b, r' => ∃ r₁, r.Meanwhile r₁ ∧
    if r₁.session.isCancelled then RunsTo (next (.error .cancelled)) r₁ b r'
    else RunsTo (next (match r₁.session.store.values? ks with
      | some vs => .ok vs
      | none => .error .notReady)) (r₁.watched ks) b r'
  | .isCancelled next, r, b, r' =>
    ∃ r₁, r.Meanwhile r₁ ∧ RunsTo (next r₁.session.isCancelled) r₁ b r'
  | .cancel next, r, b, r' =>
    RunsTo next { r with session := { r.session with cancelled := true } } b r'
  | .observe o next, r, b, r' =>
    ∃ r₁, r.Meanwhile r₁ ∧ RunsTo (next r₁.observer) { r₁ with observer := o } b r'
  | .perform e next, r, b, r' =>
    ∃ r₁, r.Meanwhile r₁ ∧ RunsTo next { r₁ with session := r₁.session.perform e } b r'
  | .log entry next, r, b, r' => ∃ r₁, r.Meanwhile r₁ ∧
    RunsTo next { r₁ with session := { r₁.session with log := r₁.session.log ++ [entry] } } b r'
  | .nested _ _, _, _, _ => False
  | .commit _ _, _, _, _ => False

theorem meanwhile_cancelled {r r' : Running S}
    (h : Running.Meanwhile { r with session := { r.session with cancelled := true } } r') :
    r.Meanwhile r' := by
  rcases h with h | h
  · exact .inr h
  · exact .inr h

theorem RunsTo.interrupted {t : Task S α} {r r' : Running S} {a : α}
    (h : RunsTo t { r with session := { r.session with cancelled := true } } a r') :
    RunsTo t r a r' := by
  cases t with
  | done b => exact ⟨h.1, meanwhile_cancelled h.2⟩
  | cancel next => exact h
  | nested k next => exact h
  | commit cs next => exact h
  | _ =>
      obtain ⟨r₁, hr₁, h⟩ := h
      exact ⟨r₁, meanwhile_cancelled hr₁, h⟩

/-- However a restartable task is interrupted, its run is one of the task itself. -/
theorem runsTo_uninterrupted (nest : Nest S) {idle : S.Effect → Prop} {told : List Suspension}
    {t : Task S (Except Suspension α)} (h : Restartable idle told t.uninterrupted)
    (r : Running S) : RunsTo t.uninterrupted r (t.run nest r).1 (t.run nest r).2 := by
  -- The induction is on the task with its cancellations: each of them is one from outside.
  induction t generalizing told r with
  | done a => exact ⟨rfl, .inl rfl⟩
  | request ks next ih =>
      cases h with
      | request ok error =>
        refine ⟨r, .inl rfl, ?_⟩
        by_cases live : r.session.isCancelled = false
        · rw [run_request live, if_neg (by simpa using live)]
          cases r.session.store.values? ks with
          | some vs => exact ih _ (ok vs) _
          | none => exact ih _ (error .notReady) _
        · have hcancelled : r.session.isCancelled = true := by simpa using live
          rw [run_request_cancelled hcancelled, if_pos hcancelled]
          exact ih _ (error .cancelled) r
  | isCancelled next ih =>
      cases h with
      | isCancelled h => exact ⟨r, .inl rfl, ih _ (h _) r⟩
  | cancel next ih => exact RunsTo.interrupted (ih h _)
  | observe o next ih =>
      cases h with
      | observe h => exact ⟨r, .inl rfl, ih _ (h _) _⟩
  | perform e next ih =>
      cases h with
      | perform _ h => exact ⟨r, .inl rfl, ih h _⟩
  | log entry next ih =>
      cases h with
      | log h => exact ⟨r, .inl rfl, ih h _⟩
  | nested k next ih => cases h
  | commit cs next ih => cases h

/-- A run of a bound task is a run of the first part and then one of the second. -/
theorem RunsTo.of_bind {t : Task S α} {f : α → Task S β} {r r'' : Running S} {b : β}
    (h : RunsTo (t.bind f) r b r'') :
    ∃ a r', RunsTo t r a r' ∧ RunsTo (f a) r' b r'' := by
  induction t generalizing r with
  | done a => exact ⟨a, r, ⟨rfl, .inl rfl⟩, h⟩
  | request ks next ih =>
      obtain ⟨r₁, hr₁, h⟩ := h
      by_cases hc : r₁.session.isCancelled = true
      · rw [if_pos hc] at h
        obtain ⟨a, r', ht, hf⟩ := ih _ h
        refine ⟨a, r', ⟨r₁, hr₁, ?_⟩, hf⟩
        rw [if_pos hc]
        exact ht
      · rw [if_neg hc] at h
        obtain ⟨a, r', ht, hf⟩ := ih _ h
        refine ⟨a, r', ⟨r₁, hr₁, ?_⟩, hf⟩
        rw [if_neg hc]
        exact ht
  | cancel next ih => exact ih h
  | nested k next ih => exact h.elim
  | commit cs next ih => exact h.elim
  | isCancelled next ih =>
      obtain ⟨r₁, hr₁, h⟩ := h
      obtain ⟨a, r', ht, hf⟩ := ih _ h
      exact ⟨a, r', ⟨r₁, hr₁, ht⟩, hf⟩
  | observe o next ih =>
      obtain ⟨r₁, hr₁, h⟩ := h
      obtain ⟨a, r', ht, hf⟩ := ih _ h
      exact ⟨a, r', ⟨r₁, hr₁, ht⟩, hf⟩
  | perform e next ih =>
      obtain ⟨r₁, hr₁, h⟩ := h
      obtain ⟨a, r', ht, hf⟩ := ih h
      exact ⟨a, r', ⟨r₁, hr₁, ht⟩, hf⟩
  | log entry next ih =>
      obtain ⟨r₁, hr₁, h⟩ := h
      obtain ⟨a, r', ht, hf⟩ := ih h
      exact ⟨a, r', ⟨r₁, hr₁, ht⟩, hf⟩

theorem leaves_meanwhile {r r' : Running S} (h : r.Meanwhile r') :
    Leaves r.session r'.session [] := by
  rcases h with rfl | rfl
  · exact ⟨rfl, rfl, rfl⟩
  · exact ⟨rfl, rfl, rfl⟩

theorem leaves_logged (s : Session S) (log : List LogEntry) :
    Leaves s { s with log := log } [] := ⟨rfl, rfl, rfl⟩

theorem Leaves.meanwhile {s : Session S} {r r' : Running S} {es : List S.Effect}
    (h : Leaves s r.session es) (hr : r.Meanwhile r') : Leaves s r'.session es := by
  have hleaves := h.trans (leaves_meanwhile hr)
  rwa [List.append_nil] at hleaves

/-- A run of a restartable task leaves the store alone and performs harmless effects only. -/
theorem Restartable.runsTo_leaves {idle : S.Effect → Prop}
    (around : ∀ o, idle (S.beforeRequest o) ∧ idle (S.afterRequest o)) {told : List Suspension}
    {t : Task S (Except Suspension α)} (h : Restartable idle told t) {r r' : Running S}
    {a : Except Suspension α} (hrun : RunsTo t r a r') :
    ∃ es, Leaves r.session r'.session es ∧ ∀ e ∈ es, idle e := by
  induction h generalizing r with
  | done => exact ⟨[], leaves_meanwhile hrun.2, by simp⟩
  | @request told ks next _ _ ihok iherror =>
      obtain ⟨r₁, hr₁, hrun⟩ := hrun
      have hwatched : Leaves r.session (r₁.watched ks).session (Task.around r₁.observer) :=
        (leaves_meanwhile hr₁).trans (leaves_watched r₁ ks)
      have haround : ∀ e ∈ Task.around r₁.observer, idle e := by
        cases r₁.observer with
        | none => simp [Task.around]
        | some o => simpa [Task.around] using around o
      split at hrun
      · obtain ⟨es, hes, hidle⟩ := iherror .cancelled hrun
        exact ⟨[] ++ es, (leaves_meanwhile hr₁).trans hes, hidle⟩
      · cases hvs : r₁.session.store.values? ks with
        | some vs =>
            rw [hvs] at hrun
            obtain ⟨es, hes, hidle⟩ := ihok vs hrun
            exact ⟨_, hwatched.trans hes, List.forall_mem_append.mpr ⟨haround, hidle⟩⟩
        | none =>
            rw [hvs] at hrun
            obtain ⟨es, hes, hidle⟩ := iherror .notReady hrun
            exact ⟨_, hwatched.trans hes, List.forall_mem_append.mpr ⟨haround, hidle⟩⟩
  | isCancelled _ ih =>
      obtain ⟨r₁, hr₁, hrun⟩ := hrun
      obtain ⟨es, hes, hidle⟩ := ih _ hrun
      exact ⟨[] ++ es, (leaves_meanwhile hr₁).trans hes, hidle⟩
  | observe _ ih =>
      obtain ⟨r₁, hr₁, hrun⟩ := hrun
      obtain ⟨es, hes, hidle⟩ := ih _ hrun
      exact ⟨[] ++ es, (leaves_meanwhile hr₁).trans hes, hidle⟩
  | @perform told effect next he _ ih =>
      obtain ⟨r₁, hr₁, hrun⟩ := hrun
      obtain ⟨es, hes, hidle⟩ := ih hrun
      have hperform : Leaves r₁.session (r₁.session.perform effect) [effect] := ⟨rfl, rfl, rfl⟩
      exact ⟨_, ((leaves_meanwhile hr₁).trans hperform).trans hes,
        List.forall_mem_append.mpr ⟨by simpa using he, hidle⟩⟩
  | @log told entry next _ ih =>
      obtain ⟨r₁, hr₁, hrun⟩ := hrun
      obtain ⟨es, hes, hidle⟩ := ih hrun
      have hlog := leaves_logged r₁.session (r₁.session.log ++ [entry])
      exact ⟨_, ((leaves_meanwhile hr₁).trans hlog).trans hes, hidle⟩

end Task

namespace Demand

/-- The demand suspends only at requests, and its effects are of the given kind. -/
def Restartable (idle : S.Effect → Prop) (d : Demand S α) : Prop := Task.Restartable idle [] d.run

theorem restartable_pure {idle : S.Effect → Prop} (a : α) :
    Restartable idle (pure a : Demand S α) := .done_ok a

theorem Restartable.bind {idle : S.Effect → Prop} {d : Demand S α} {f : α → Demand S β}
    (h : d.Restartable idle) (hf : ∀ a, (f a).Restartable idle) : (d >>= f).Restartable idle :=
  Task.Restartable.bind h hf .done_error

instance (idle : S.Effect → Prop) : Composed (S := S) (Restartable idle) where
  pure := restartable_pure
  bind := .bind
  value _ := .request (fun _ => .done_ok _) fun _ => .done_error _
  values _ _ _ := .request (fun _ => .done_ok _) fun _ => .done_error _
  values₂ _ _ _ _ _ _ := .request (fun _ => .done_ok _) fun _ => .done_error _
  log _ := .log (.done_ok _)

theorem Restartable.imp {idle idle' : S.Effect → Prop} {d : Demand S α} (h : d.Restartable idle)
    (himp : ∀ e, idle e → idle' e) : d.Restartable idle' := Task.Restartable.imp h himp

theorem restartable_lift {idle : S.Effect → Prop} {t : Task S α} (h : t.Quiet)
    (hidle : ∀ e, idle e) : Restartable idle (lift t) := by
  change Task.Restartable idle [] (t.bind fun a => .done (.ok a))
  induction h with
  | done a => exact .done_ok a
  | observe _ ih => exact .observe ih
  | perform _ ih => exact .perform (hidle _) ih
  | log _ ih => exact .log ih

end Demand
end BuildAnalysis.Engine
