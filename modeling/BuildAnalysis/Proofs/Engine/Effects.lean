import BuildAnalysis.Proofs.Engine.Interruption

/-!
# The effects of a run

The effects that a task performs, in order, those of its observer included, which stand around each
request that is not cut off by a cancellation. A task that only asks, by requests and by looking at
the cancellation, has no other effects than those of its observer.
-/
namespace BuildAnalysis.Engine

variable {S : KeySpace} {α β : Type}

namespace Task

/-- Under an observer the task may perform these effects, with whatever answers it gets, and end
with this result and under that observer. -/
inductive Performs : Option S.Observer → Task S α → List S.Effect → α → Option S.Observer → Prop
  | done {o a} : Performs o (done a) [] a o
  | cutOff {o ks next es a o'} (h : Performs o (next (.error .cancelled)) es a o') :
      Performs o (request ks next) es a o'
  | request {o ks next answer es a o'} (h : Performs o (next answer) es a o') :
      Performs o (request ks next) (around o ++ es) a o'
  | isCancelled {o next b es a o'} (h : Performs o (next b) es a o') :
      Performs o (isCancelled next) es a o'
  | cancel {o next es a o'} (h : Performs o next es a o') : Performs o (cancel next) es a o'
  | observe {o p next es a o'} (h : Performs p (next o) es a o') :
      Performs o (observe p next) es a o'
  | perform {o e next es a o'} (h : Performs o next es a o') :
      Performs o (perform e next) (e :: es) a o'
  | log {o entry next es a o'} (h : Performs o next es a o') : Performs o (log entry next) es a o'

theorem meanwhile_observer {r r' : Running S} (h : r.Meanwhile r') : r'.observer = r.observer := by
  rcases h with rfl | rfl <;> rfl

theorem Performs.of_done {o o' : Option S.Observer} {es : List S.Effect} {a b : α}
    (h : Performs o (.done a) es b o') : es = [] ∧ b = a := by
  cases h
  exact ⟨rfl, rfl⟩

theorem Performs.of_observe {o o' p : Option S.Observer} {next : Option S.Observer → Task S α}
    {es : List S.Effect} {a : α} (h : Performs o (.observe p next) es a o') :
    Performs p (next o) es a o' := by
  cases h with
  | observe h => exact h

theorem Performs.of_perform {o o' : Option S.Observer} {e : S.Effect} {next : Task S α}
    {es : List S.Effect} {a : α} (h : Performs o (.perform e next) es a o') :
    ∃ es', es = e :: es' ∧ Performs o next es' a o' := by
  cases h with
  | perform h => exact ⟨_, rfl, h⟩

theorem Performs.of_log {o o' : Option S.Observer} {entry : LogEntry} {next : Task S α}
    {es : List S.Effect} {a : α} (h : Performs o (.log entry next) es a o') :
    Performs o next es a o' := by
  cases h with
  | log h => exact h

theorem notify_observer (r : Running S) (f : S.Observer → S.Effect) :
    (r.notify f).observer = r.observer := by
  unfold Running.notify
  split <;> rfl

theorem watched_observer (r : Running S) (ks : List S.Key) :
    (r.watched ks).observer = r.observer :=
  (notify_observer _ _).trans (notify_observer r _)

theorem RunsTo.performs {t : Task S α} {r r' : Running S} {a : α} (h : RunsTo t r a r') :
    ∃ es, Performs r.observer t es a r'.observer ∧ Leaves r.session r'.session es := by
  induction t generalizing r with
  | done b =>
      obtain ⟨rfl, hr⟩ := h
      exact ⟨[], meanwhile_observer hr ▸ .done, leaves_meanwhile hr⟩
  | request ks next ih =>
      obtain ⟨r₁, hr₁, h⟩ := h
      rw [← meanwhile_observer hr₁]
      split at h
      · obtain ⟨es, hes, hleaves⟩ := ih _ h
        exact ⟨[] ++ es, .cutOff hes, (leaves_meanwhile hr₁).trans hleaves⟩
      · obtain ⟨es, hes, hleaves⟩ := ih _ h
        rw [watched_observer] at hes
        refine ⟨_, .request hes, ?_⟩
        exact ((leaves_meanwhile hr₁).trans (leaves_watched r₁ ks)).trans hleaves
  | isCancelled next ih =>
      obtain ⟨r₁, hr₁, h⟩ := h
      rw [← meanwhile_observer hr₁]
      obtain ⟨es, hes, hleaves⟩ := ih _ h
      exact ⟨[] ++ es, .isCancelled hes, (leaves_meanwhile hr₁).trans hleaves⟩
  | cancel next ih =>
      obtain ⟨es, hes, hleaves⟩ := ih h
      exact ⟨es, .cancel hes, ⟨hleaves.store, hleaves.nested, hleaves.world⟩⟩
  | observe o next ih =>
      obtain ⟨r₁, hr₁, h⟩ := h
      rw [← meanwhile_observer hr₁]
      obtain ⟨es, hes, hleaves⟩ := ih _ h
      exact ⟨[] ++ es, .observe hes, (leaves_meanwhile hr₁).trans hleaves⟩
  | perform e next ih =>
      obtain ⟨r₁, hr₁, h⟩ := h
      rw [← meanwhile_observer hr₁]
      obtain ⟨es, hes, hleaves⟩ := ih h
      have hperform : Leaves r₁.session (r₁.session.perform e) [e] := ⟨rfl, rfl, rfl⟩
      exact ⟨_, .perform hes, ((leaves_meanwhile hr₁).trans hperform).trans hleaves⟩
  | log entry next ih =>
      obtain ⟨r₁, hr₁, h⟩ := h
      rw [← meanwhile_observer hr₁]
      obtain ⟨es, hes, hleaves⟩ := ih h
      have hlog := leaves_logged r₁.session (r₁.session.log ++ [entry])
      exact ⟨[] ++ ([] ++ es), .log hes, (leaves_meanwhile hr₁).trans (hlog.trans hleaves)⟩
  | nested k next ih => exact h.elim
  | commit cs next ih => exact h.elim

/-- The effects of a bound task are those of its two parts. -/
theorem Performs.of_bind {t : Task S α} {f : α → Task S β} {o o' : Option S.Observer}
    {es : List S.Effect} {b : β} (h : Performs o (t.bind f) es b o') :
    ∃ es₁ es₂ a o₁, es = es₁ ++ es₂ ∧ Performs o t es₁ a o₁ ∧ Performs o₁ (f a) es₂ b o' := by
  induction t generalizing o es with
  | done a => exact ⟨[], es, a, o, rfl, .done, h⟩
  | request ks next ih =>
      cases h with
      | cutOff h =>
          obtain ⟨es₁, es₂, a, o₁, rfl, ht, hf⟩ := ih _ h
          exact ⟨es₁, es₂, a, o₁, rfl, .cutOff ht, hf⟩
      | request h =>
          obtain ⟨es₁, es₂, a, o₁, rfl, ht, hf⟩ := ih _ h
          exact ⟨_, es₂, a, o₁, (List.append_assoc _ _ _).symm, .request ht, hf⟩
  | isCancelled next ih =>
      cases h with
      | isCancelled h =>
          obtain ⟨es₁, es₂, a, o₁, hes, ht, hf⟩ := ih _ h
          exact ⟨es₁, es₂, a, o₁, hes, .isCancelled ht, hf⟩
  | cancel next ih =>
      cases h with
      | cancel h =>
          obtain ⟨es₁, es₂, a, o₁, hes, ht, hf⟩ := ih h
          exact ⟨es₁, es₂, a, o₁, hes, .cancel ht, hf⟩
  | observe p next ih =>
      cases h with
      | observe h =>
          obtain ⟨es₁, es₂, a, o₁, hes, ht, hf⟩ := ih _ h
          exact ⟨es₁, es₂, a, o₁, hes, .observe ht, hf⟩
  | perform e next ih =>
      cases h with
      | perform h =>
          obtain ⟨es₁, es₂, a, o₁, rfl, ht, hf⟩ := ih h
          exact ⟨e :: es₁, es₂, a, o₁, rfl, .perform ht, hf⟩
  | log entry next ih =>
      cases h with
      | log h =>
          obtain ⟨es₁, es₂, a, o₁, hes, ht, hf⟩ := ih h
          exact ⟨es₁, es₂, a, o₁, hes, .log ht, hf⟩
  | nested k next ih => cases h
  | commit cs next ih => cases h

inductive Asks : Task S α → Prop
  | done {a} : Asks (done a)
  | request {ks next} (h : ∀ answer, Asks (next answer)) : Asks (request ks next)
  | isCancelled {next} (h : ∀ b, Asks (next b)) : Asks (isCancelled next)
  | log {entry next} (h : Asks next) : Asks (log entry next)

theorem Asks.bind {t : Task S α} {f : α → Task S β} (h : t.Asks) (hf : ∀ a, (f a).Asks) :
    (t.bind f).Asks := by
  induction h with
  | done => exact hf _
  | request _ ih => exact .request ih
  | isCancelled _ ih => exact .isCancelled ih
  | log _ ih => exact .log ih

/-- Whatever a task asks for, its effects are those of its observer, once for each request. -/
theorem Asks.performs {t : Task S α} (h : t.Asks) {o o' : Option S.Observer} {es : List S.Effect}
    {a : α} (hes : Performs o t es a o') :
    o' = o ∧ ∃ n, es = (List.replicate n (around o)).flatten := by
  induction h generalizing es with
  | done =>
      cases hes
      exact ⟨rfl, 0, rfl⟩
  | request _ ih =>
      cases hes with
      | cutOff hes => exact ih _ hes
      | request hes =>
          obtain ⟨ho, n, rfl⟩ := ih _ hes
          exact ⟨ho, n + 1, rfl⟩
  | isCancelled _ ih =>
      cases hes with
      | isCancelled hes => exact ih _ hes
  | log _ ih =>
      cases hes with
      | log hes => exact ih hes

end Task

namespace Demand

/-- The demand requests values and logs, and does nothing else. -/
def Asks (d : Demand S α) : Prop := Task.Asks d.run

theorem Asks.bind {d : Demand S α} {f : α → Demand S β} (h : d.Asks) (hf : ∀ a, (f a).Asks) :
    (d >>= f).Asks := by
  refine Task.Asks.bind h fun r => ?_
  cases r with
  | ok a => exact hf a
  | error e => exact .done

instance : Composed (S := S) Asks where
  pure _ := .done
  bind := .bind
  value _ := .request fun _ => .done
  values _ _ _ := .request fun _ => .done
  values₂ _ _ _ _ _ _ := .request fun _ => .done
  log _ := .log .done

end Demand
end BuildAnalysis.Engine
