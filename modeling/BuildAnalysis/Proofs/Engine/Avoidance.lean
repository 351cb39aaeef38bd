import BuildAnalysis.Proofs.Engine.Run

/-!
# Tasks that avoid some keys

Some keys are barred, and a task requests none of them as long as a store answers what it does
request. A run of it records no barred key. If besides the task leaves the store alone, then it does
not matter what the barred keys have for values: on a store that has the same values for the keys
that were requested, the run is the same.
-/
namespace BuildAnalysis.Engine

variable {S : KeySpace} {α β : Type}

namespace Running

/-- The same running session with another store. -/
def onStore (r : Running S) (st : Store S) : Running S :=
  { r with session := { r.session with store := st } }

theorem watched_onStore (r : Running S) {st : Store S} {ks : List S.Key}
    (h : st.missing ks = r.session.store.missing ks) :
    (r.onStore st).watched ks = (r.watched ks).onStore st := by
  obtain ⟨s, o, deps, missing⟩ := r
  cases o <;> simp [watched, onStore, notify, record, Session.perform, h]

end Running

namespace Task

/-- On a store the task requests no barred key, and its results are as promised. A confined task
computes nothing in transactions of their own and commits nothing; what another one finds in the
store after that is not known. -/
inductive Avoids (barred : S.Key → Prop) (confined : Prop) (promised : α → Prop) :
    Store S → Task S α → Prop
  | done {st a} (h : promised a) : Avoids barred confined promised st (done a)
  | request {st ks next} (free : ∀ k ∈ ks, ¬ barred k)
      (ok : ∀ vs, st.values? ks = some vs → Avoids barred confined promised st (next (.ok vs)))
      (error : ∀ e, Avoids barred confined promised st (next (.error e))) :
      Avoids barred confined promised st (request ks next)
  | isCancelled {st next} (h : ∀ b, Avoids barred confined promised st (next b)) :
      Avoids barred confined promised st (isCancelled next)
  | cancel {st next} (h : Avoids barred confined promised st next) :
      Avoids barred confined promised st (cancel next)
  | observe {st o next} (h : ∀ o, Avoids barred confined promised st (next o)) :
      Avoids barred confined promised st (observe o next)
  | perform {st effect next} (h : Avoids barred confined promised st next) :
      Avoids barred confined promised st (perform effect next)
  | log {st entry next} (h : Avoids barred confined promised st next) :
      Avoids barred confined promised st (log entry next)
  | nested {st k next} (leaves : ¬ confined) (free : ¬ barred k)
      (h : ∀ st r, Avoids barred confined promised st (next r)) :
      Avoids barred confined promised st (nested k next)
  | commit {st cs next} (leaves : ¬ confined)
      (h : ∀ st, Avoids barred confined promised st next) :
      Avoids barred confined promised st (commit cs next)

variable {barred : S.Key → Prop} {confined : Prop} {promised promised' : α → Prop}
  {kept : β → Prop} {st : Store S} {t : Task S α}

namespace Avoids

theorem imp (h : Avoids barred confined promised st t)
    (himp : ∀ a, promised a → promised' a) : Avoids barred confined promised' st t := by
  induction h with
  | done h => exact .done (himp _ h)
  | request free _ _ ihok iherror => exact .request free ihok iherror
  | isCancelled _ ih => exact .isCancelled ih
  | cancel _ ih => exact .cancel ih
  | observe _ ih => exact .observe ih
  | perform _ ih => exact .perform ih
  | log _ ih => exact .log ih
  | nested leaves free _ ih => exact .nested leaves free ih
  | commit leaves _ ih => exact .commit leaves ih

/-- What follows a confined task finds the store as it was. -/
theorem bind {f : α → Task S β} (h : Avoids barred True promised st t)
    (hf : ∀ a, promised a → Avoids barred confined kept st (f a)) :
    Avoids barred confined kept st (t.bind f) := by
  induction h with
  | done h => exact hf _ h
  | request free _ _ ihok iherror =>
      exact .request free (fun vs hvs => ihok vs hvs hf) fun e => iherror e hf
  | isCancelled _ ih => exact .isCancelled fun b => ih b hf
  | cancel _ ih => exact .cancel (ih hf)
  | observe _ ih => exact .observe fun o => ih o hf
  | perform _ ih => exact .perform (ih hf)
  | log _ ih => exact .log (ih hf)
  | nested leaves _ _ _ => exact absurd trivial leaves
  | commit leaves _ _ => exact absurd trivial leaves

theorem andThen {f : α → Task S β} (h : Avoids barred confined promised st t)
    (hf : ∀ st a, promised a → Avoids barred confined kept st (f a)) :
    Avoids barred confined kept st (t.bind f) := by
  induction h with
  | done h => exact hf _ _ h
  | request free _ _ ihok iherror => exact .request free ihok iherror
  | isCancelled _ ih => exact .isCancelled ih
  | cancel _ ih => exact .cancel ih
  | observe _ ih => exact .observe ih
  | perform _ ih => exact .perform ih
  | log _ ih => exact .log ih
  | nested leaves free _ ih => exact .nested leaves free ih
  | commit leaves _ ih => exact .commit leaves ih

end Avoids

/-- Whether the request is cancelled on the way is of no concern. -/
theorem avoids_uninterrupted :
    Avoids barred confined promised st t.uninterrupted ↔ Avoids barred confined promised st t := by
  constructor
  · intro h
    induction t generalizing st with
    | done a => exact h
    | request ks next ih =>
        cases h with
        | request free ok error =>
          exact .request free (fun vs hvs => ih _ (ok vs hvs)) fun e => ih _ (error e)
    | isCancelled next ih =>
        cases h with
        | isCancelled h => exact .isCancelled fun b => ih b (h b)
    | cancel next ih => exact .cancel (ih h)
    | observe o next ih =>
        cases h with
        | observe h => exact .observe fun o => ih o (h o)
    | perform e next ih =>
        cases h with
        | perform h => exact .perform (ih h)
    | log entry next ih =>
        cases h with
        | log h => exact .log (ih h)
    | nested k next ih =>
        cases h with
        | nested leaves free h => exact .nested leaves free fun st r => ih r (h st r)
    | commit cs next ih =>
        cases h with
        | commit leaves h => exact .commit leaves fun st => ih (h st)
  · intro h
    induction h with
    | done h => exact .done h
    | request free _ _ ihok iherror => exact .request free ihok iherror
    | isCancelled _ ih => exact .isCancelled ih
    | cancel _ ih => exact ih
    | observe _ ih => exact .observe ih
    | perform _ ih => exact .perform ih
    | log _ ih => exact .log ih
    | nested leaves free _ ih => exact .nested leaves free ih
    | commit leaves _ ih => exact .commit leaves ih

theorem mem_run_deps (nest : Nest S) (t : Task S α) (r : Running S) {k : S.Key} (hk : k ∈ r.deps) :
    k ∈ (t.run nest r).2.deps := by
  induction t generalizing r with
  | done a => exact hk
  | request ks next ih =>
      by_cases live : r.session.isCancelled = false
      · rw [run_request live]
        refine ih _ _ ?_
        rw [r.watched_deps]
        exact Listing.mem_addAll.mpr (.inl hk)
      · rw [run_request_cancelled (by simpa using live)]
        exact ih _ r hk
  | isCancelled next ih => exact ih _ r hk
  | cancel next ih => exact ih _ hk
  | observe o next ih => exact ih _ _ hk
  | perform e next ih => exact ih _ hk
  | log entry next ih => exact ih _ hk
  | nested k next ih => exact ih _ _ hk
  | commit cs next ih => exact ih _ hk

namespace Avoids

/-- A run records no barred key, and it comes to what is promised. -/
theorem run (nest : Nest S) (h : Avoids barred confined promised st t) {r : Running S}
    (hst : r.session.store = st) :
    (∀ k ∈ (t.run nest r).2.deps, k ∈ r.deps ∨ ¬ barred k) ∧ promised (t.run nest r).1 := by
  induction h generalizing r with
  | done h => exact ⟨fun _ hk => .inl hk, h⟩
  | @request st ks next free _ _ ihok iherror =>
      subst hst
      by_cases live : r.session.isCancelled = false
      · rw [run_request live]
        have hrecorded : ∀ k, k ∈ (r.watched ks).deps ∨ ¬ barred k → k ∈ r.deps ∨ ¬ barred k := by
          intro k hk
          rw [r.watched_deps, Listing.mem_addAll] at hk
          exact hk.elim (fun hk => hk.imp_right (free k)) .inr
        cases hvs : r.session.store.values? ks with
        | some vs =>
            obtain ⟨hdeps, hresult⟩ := ihok vs hvs (r.watched_store ks)
            exact ⟨fun k hk => hrecorded k (hdeps k hk), hresult⟩
        | none =>
            obtain ⟨hdeps, hresult⟩ := iherror .notReady (r.watched_store ks)
            exact ⟨fun k hk => hrecorded k (hdeps k hk), hresult⟩
      · rw [run_request_cancelled (by simpa using live)]
        exact iherror .cancelled rfl
  | isCancelled _ ih => exact ih _ hst
  | cancel _ ih => exact ih hst
  | observe _ ih => exact ih _ hst
  | perform _ ih => exact ih hst
  | log _ ih => exact ih hst
  | nested _ _ _ ih => exact ih _ _ rfl
  | commit _ _ ih => exact ih _ rfl

/-- On a store with the same values for the keys that a run requests, barred ones excepted, a run of
a confined task is the same. -/
theorem run_onStore (nest nest' : Nest S) (hconfined : confined)
    (h : Avoids barred confined promised st t) {r : Running S} (hst : r.session.store = st)
    {st' : Store S}
    (agrees : ∀ k ∈ (t.run nest r).2.deps, ¬ barred k → st'.value? k = st.value? k) :
    t.run nest' (r.onStore st') = ((t.run nest r).1, (t.run nest r).2.onStore st') := by
  induction h generalizing r with
  | done _ => rfl
  | @request st ks next free _ _ ihok iherror =>
      subst hst
      by_cases live : r.session.isCancelled = false
      · have live' : (r.onStore st').session.isCancelled = false := live
        rw [run_request live] at agrees ⊢
        rw [run_request live']
        have hagrees : ∀ k ∈ ks, st'.value? k = r.session.store.value? k := by
          intro k hk
          refine agrees k (mem_run_deps nest _ _ ?_) (free k hk)
          rw [r.watched_deps]
          exact Listing.mem_addAll.mpr (.inr hk)
        have hmissing : st'.missing ks = r.session.store.missing ks :=
          List.filter_congr fun k hk => by rw [Store.contains, Store.contains, hagrees k hk]
        have hvalues : (r.onStore st').session.store.values? ks = r.session.store.values? ks :=
          Store.values?_congr hagrees
        rw [r.watched_onStore hmissing, hvalues]
        cases hvs : r.session.store.values? ks with
        | some vs =>
            rw [hvs] at agrees
            exact ihok vs hvs (r.watched_store ks) agrees
        | none =>
            rw [hvs] at agrees
            exact iherror .notReady (r.watched_store ks) agrees
      · have hcancelled : r.session.isCancelled = true := by simpa using live
        rw [run_request_cancelled hcancelled] at agrees ⊢
        rw [run_request_cancelled (r := r.onStore st') hcancelled]
        exact iherror .cancelled rfl agrees
  | isCancelled _ ih => exact ih _ hst agrees
  | cancel _ ih =>
      exact ih (r := { r with session := { r.session with cancelled := true } }) hst agrees
  | @observe _ o _ _ ih => exact ih r.observer (r := { r with observer := o }) hst agrees
  | @perform _ e _ _ ih =>
      exact ih (r := { r with session := r.session.perform e }) hst agrees
  | @log _ entry _ _ ih =>
      exact ih (r := { r with session := { r.session with log := r.session.log ++ [entry] } }) hst
        agrees
  | nested leaves _ _ _ => exact absurd hconfined leaves
  | commit leaves _ _ => exact absurd hconfined leaves

end Avoids

end Task
end BuildAnalysis.Engine
