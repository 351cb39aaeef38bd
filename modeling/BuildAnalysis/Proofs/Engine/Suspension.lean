import BuildAnalysis.Engine.Scheduler
import BuildAnalysis.Proofs.Engine.Run
import BuildAnalysis.Proofs.Engine.Store

/-!
# Tasks that suspend at requests only

A task may end without a value only as a request on its way told it to: it is not ready only if a
key that it requested had no value, and cancelled only if its transaction was. Such a task may go on
after an unanswered request, cancel, compute keys in transactions of their own and look at the
cancellation, but it commits nothing, since what it computes is a function of what it requests.
Whatever such tasks do, a session grows: it keeps its values and its transaction, and a cancellation
stays in force.
-/
namespace BuildAnalysis.Engine

variable {S : KeySpace} {α : Type}

namespace Session

structure Grows (s t : Session S) : Prop where
  store : s.store.Within t.store
  nested : t.nested = s.nested
  cancelled : s.cancelled = true → t.cancelled = true

namespace Grows

variable {s t u : Session S}

theorem of_eq (store : t.store = s.store) (nested : t.nested = s.nested)
    (cancelled : t.cancelled = s.cancelled) : s.Grows t :=
  ⟨fun _ _ hv => store ▸ hv, nested, fun h => cancelled.trans h⟩

theorem refl (s : Session S) : s.Grows s := of_eq rfl rfl rfl

theorem trans (h : s.Grows t) (h' : t.Grows u) : s.Grows u :=
  ⟨fun k v hv => h'.store k v (h.store k v hv), h'.nested.trans h.nested,
    fun hc => h'.cancelled (h.cancelled hc)⟩

theorem isCancelled (h : s.Grows t) (hs : s.isCancelled = true) : t.isCancelled = true := by
  simp only [Session.isCancelled, Bool.and_eq_true, Bool.not_eq_true'] at hs ⊢
  exact ⟨h.cancelled hs.1, h.nested.trans hs.2⟩

theorem contains_eq_false (h : s.Grows t) {k : S.Key} (hk : t.store.contains k = false) :
    s.store.contains k = false := by
  by_contra hs
  have hcached : t.store.contains k = true := h.store.contains (by simpa using hs)
  rw [hk] at hcached
  cases hcached

end Grows

theorem grows_cancelled (s : Session S) : s.Grows { s with cancelled := true } :=
  ⟨fun _ _ hv => hv, rfl, fun _ => rfl⟩

theorem grows_perform (s : Session S) (e : S.Effect) : s.Grows (s.perform e) := .of_eq rfl rfl rfl

theorem grows_log (s : Session S) (entry : LogEntry) :
    s.Grows { s with log := s.log ++ [entry] } := .of_eq rfl rfl rfl

theorem nest_grows {β : Type} (s : Session S) {serve : Session S → β × Session S}
    (h : ∀ s : Session S, s.Grows (serve s).2) : s.Grows (s.nest serve).2 :=
  have hserved := h { s.commit [] with nested := true }
  ⟨hserved.store, rfl, hserved.cancelled⟩

end Session

/-- Serving a nested request only lets the session grow. -/
abbrev Nest.Grows (nest : Nest S) : Prop := ∀ k (s : Session S), s.Grows (nest k s).2

namespace Task

/-- The task commits nothing and suspends only in one of the given ways or as one of its requests
told it to. -/
inductive Suspends : List Suspension → Task S (Except Suspension α) → Prop
  | done {told r} (h : ∀ e, r = .error e → e ∈ told) : Suspends told (done r)
  | request {told ks next} (ok : ∀ vs, Suspends told (next (.ok vs)))
      (error : ∀ e, Suspends (e :: told) (next (.error e))) : Suspends told (request ks next)
  | isCancelled {told next} (h : ∀ b, Suspends told (next b)) : Suspends told (isCancelled next)
  | cancel {told next} (h : Suspends told next) : Suspends told (cancel next)
  | observe {told o next} (h : ∀ o, Suspends told (next o)) : Suspends told (observe o next)
  | perform {told effect next} (h : Suspends told next) : Suspends told (perform effect next)
  | log {told entry next} (h : Suspends told next) : Suspends told (log entry next)
  | nested {told k next} (h : ∀ r, Suspends told (next r)) : Suspends told (nested k next)

theorem Suspends.mono {told told' : List Suspension} {t : Task S (Except Suspension α)}
    (h : t.Suspends told) (hsub : told ⊆ told') : t.Suspends told' := by
  induction h generalizing told' with
  | done hr => exact .done fun e he => hsub (hr e he)
  | request _ _ ihok iherror =>
      exact .request (fun vs => ihok vs hsub) fun e => iherror e (List.cons_subset_cons e hsub)
  | isCancelled _ ih => exact .isCancelled fun b => ih b hsub
  | cancel _ ih => exact .cancel (ih hsub)
  | observe _ ih => exact .observe fun o => ih o hsub
  | perform _ ih => exact .perform (ih hsub)
  | log _ ih => exact .log (ih hsub)
  | nested _ ih => exact .nested fun r => ih r hsub

end Task

/-- The keys that are computed suspend only as one of their requests tells them to. -/
def Computation.SuspendsAtRequests (compute : Computation S) : Prop :=
  ∀ k, S.isInjected k = false → (compute k).Suspends []

/-- The keys that are computed are not ready only if one of their requests tells them so; they may
end cancelled at any time. -/
def Computation.WaitsAtRequests (compute : Computation S) : Prop :=
  ∀ k, S.isInjected k = false → (compute k).Suspends [.cancelled]

namespace Running

/-- How a running session goes on: the missing keys that it adds had no value before, and they are
among the requested ones. -/
structure Follows (r r' : Running S) : Prop where
  grows : r.session.Grows r'.session
  missing : r.missing ⊆ r'.missing
  fresh : ∀ k ∈ r'.missing, k ∈ r.missing ∨ r.session.store.contains k = false
  requested : r.missing ⊆ r.deps → r'.missing ⊆ r'.deps
  nodup : r.missing.Nodup → r'.missing.Nodup

namespace Follows

variable {r r' r'' : Running S}

theorem trans (h : r.Follows r') (h' : r'.Follows r'') : r.Follows r'' where
  grows := h.grows.trans h'.grows
  missing := List.Subset.trans h.missing h'.missing
  fresh k hk := by
    rcases h'.fresh k hk with hk | hk
    · exact h.fresh k hk
    · exact .inr (h.grows.contains_eq_false hk)
  requested hsub := h'.requested (h.requested hsub)
  nodup hr := h'.nodup (h.nodup hr)

end Follows

/-- What changes the session only records no request. -/
theorem follows_session (r : Running S) {s : Session S} (h : r.session.Grows s) :
    r.Follows { r with session := s } :=
  ⟨h, List.Subset.refl _, fun _ => .inl, id, id⟩

theorem follows_observer (r : Running S) (o : Option S.Observer) :
    r.Follows { r with observer := o } :=
  ⟨.refl _, List.Subset.refl _, fun _ => .inl, id, id⟩

theorem follows_notify (r : Running S) (f : S.Observer → S.Effect) : r.Follows (r.notify f) := by
  unfold notify
  split
  · exact r.follows_session (r.session.grows_perform _)
  · exact r.follows_session (.refl _)

theorem follows_record (r : Running S) (ks : List S.Key) : r.Follows (r.record ks) where
  grows := .refl _
  missing k hk := Listing.mem_addAll.mpr (.inl hk)
  fresh k hk := by
    rcases Listing.mem_addAll.mp hk with hk | hk
    · exact .inl hk
    · exact .inr (by simpa using (List.mem_filter.mp hk).2)
  requested hsub k hk := by
    rcases Listing.mem_addAll.mp hk with hk | hk
    · exact Listing.mem_addAll.mpr (.inl (hsub hk))
    · exact Listing.mem_addAll.mpr (.inr (List.mem_filter.mp hk).1)
  nodup hr := Listing.nodup_addAll hr _

theorem follows_watched (r : Running S) (ks : List S.Key) : r.Follows (r.watched ks) :=
  ((r.follows_notify _).trans (follows_record _ ks)).trans (follows_notify _ _)

/-- What makes a request tell a task to suspend. -/
def Tells (r : Running S) : Suspension → Prop
  | .notReady => r.missing ≠ []
  | .cancelled => r.session.isCancelled = true

theorem Follows.tells {r r' : Running S} (h : r.Follows r') {e : Suspension} (he : r.Tells e) :
    r'.Tells e := by
  cases e with
  | notReady =>
      obtain ⟨k, hk⟩ := List.exists_mem_of_ne_nil _ he
      exact List.ne_nil_of_mem (h.missing hk)
  | cancelled => exact h.grows.isCancelled he

theorem tells_record {r : Running S} {ks : List S.Key}
    (h : r.session.store.values? ks = none) : (r.record ks).Tells .notReady := by
  obtain ⟨k, hk, hn⟩ := Store.exists_of_values?_eq_none h
  have hmissing : k ∈ (r.record ks).missing := by
    refine Listing.mem_addAll.mpr (.inr (List.mem_filter.mpr ⟨hk, ?_⟩))
    rw [hn]
    rfl
  exact List.ne_nil_of_mem hmissing

theorem tells_watched {r : Running S} {ks : List S.Key}
    (h : r.session.store.values? ks = none) : (r.watched ks).Tells .notReady := by
  have hnotified : (r.notify S.beforeRequest).session.store.values? ks = none := by
    rw [notify_store, h]
  exact (follows_notify _ _).tells (tells_record hnotified)

end Running

namespace Task

variable {nest : Nest S} {told : List Suspension} {t : Task S (Except Suspension α)}

theorem Suspends.run_follows (h : t.Suspends told) (hnest : nest.Grows) (r : Running S) :
    r.Follows (t.run nest r).2 := by
  induction h generalizing r with
  | done => exact r.follows_session (.refl _)
  | @request told ks next _ _ ihok iherror =>
      by_cases live : r.session.isCancelled = false
      · rw [run_request live]
        refine (r.follows_watched ks).trans ?_
        split
        next vs _ => exact ihok vs _
        next => exact iherror .notReady _
      · rw [run_request_cancelled (by simpa using live)]
        exact iherror .cancelled r
  | isCancelled _ ih => exact ih _ r
  | cancel _ ih => exact (r.follows_session r.session.grows_cancelled).trans (ih _)
  | observe _ ih => exact (r.follows_observer _).trans (ih _ _)
  | perform _ ih => exact (r.follows_session (r.session.grows_perform _)).trans (ih _)
  | log _ ih => exact (r.follows_session (r.session.grows_log _)).trans (ih _)
  | nested _ ih => exact (r.follows_session (hnest _ _)).trans (ih _ _)

/-- A task that suspends in a way that it may not begin with was told to. -/
theorem Suspends.run_tells (h : t.Suspends told) (hnest : nest.Grows) {r : Running S}
    {e : Suspension} (htold : e ∈ told → r.Tells e) (he : (t.run nest r).1 = .error e) :
    (t.run nest r).2.Tells e := by
  induction h generalizing r with
  | done hr => exact htold (hr e he)
  | @request told ks next hok herror ihok iherror =>
      by_cases live : r.session.isCancelled = false
      · rw [run_request live] at he ⊢
        have hwatched : e ∈ told → (r.watched ks).Tells e :=
          fun hmem => (r.follows_watched ks).tells (htold hmem)
        cases hvs : r.session.store.values? ks with
        | some vs =>
            rw [hvs] at he
            exact ihok vs hwatched he
        | none =>
            rw [hvs] at he
            refine iherror .notReady (fun hmem => ?_) he
            rcases List.mem_cons.mp hmem with rfl | hmem
            · exact Running.tells_watched hvs
            · exact hwatched hmem
      · have hcancelled : r.session.isCancelled = true := by simpa using live
        rw [run_request_cancelled hcancelled] at he ⊢
        refine iherror .cancelled (fun hmem => ?_) he
        rcases List.mem_cons.mp hmem with rfl | hmem
        · exact hcancelled
        · exact htold hmem
  | isCancelled _ ih => exact ih _ htold he
  | cancel _ ih =>
      exact ih (fun hmem => (r.follows_session r.session.grows_cancelled).tells (htold hmem)) he
  | observe _ ih => exact ih _ (fun hmem => (r.follows_observer _).tells (htold hmem)) he
  | perform _ ih =>
      exact ih (fun hmem => (r.follows_session (r.session.grows_perform _)).tells (htold hmem)) he
  | log _ ih =>
      exact ih (fun hmem => (r.follows_session (r.session.grows_log _)).tells (htold hmem)) he
  | nested _ ih =>
      exact ih _ (fun hmem => (r.follows_session (hnest _ _)).tells (htold hmem)) he

end Task
end BuildAnalysis.Engine
