import BuildAnalysis.Proofs.Collection.Listing
import BuildAnalysis.Proofs.Engine.Replay

/-!
# Runs of lawful tasks

A run of a lawful task leaves the store alone, whether or not it is cancelled on the way. If it
completes, its replay on the store of the session has the same result, requests and effects. If
some store that extends the one of the session completes the replay, then an uncancelled run either
completes in the same way or misses some of the keys that the replay requests.
-/
namespace BuildAnalysis.Engine

variable {S : KeySpace} {α : Type}

def KeySpace.worldAfter (S : KeySpace) (w : S.World) (es : List S.Effect) : S.World :=
  es.foldl (fun w e => (S.perform e w).1) w

@[simp] theorem KeySpace.worldAfter_nil (w : S.World) : S.worldAfter w [] = w := rfl

@[simp] theorem KeySpace.worldAfter_cons (w : S.World) (e : S.Effect) (es : List S.Effect) :
    S.worldAfter w (e :: es) = S.worldAfter (S.perform e w).1 es := rfl

theorem KeySpace.worldAfter_append (w : S.World) (es fs : List S.Effect) :
    S.worldAfter w (es ++ fs) = S.worldAfter (S.worldAfter w es) fs := by
  simp [KeySpace.worldAfter]

namespace Running

/-- The observer set in a running session watches a request of these keys. -/
def watched (r : Running S) (ks : List S.Key) : Running S :=
  ((r.notify S.beforeRequest).record ks).notify S.afterRequest

variable (r : Running S) (ks : List S.Key)

@[simp] theorem notify_store (f : S.Observer → S.Effect) :
    (r.notify f).session.store = r.session.store := by
  unfold notify
  split <;> rfl

@[simp] theorem notify_deps (f : S.Observer → S.Effect) : (r.notify f).deps = r.deps := by
  unfold notify
  split <;> rfl

@[simp] theorem watched_store : (r.watched ks).session.store = r.session.store := by
  unfold watched
  rw [notify_store]
  exact r.notify_store _

@[simp] theorem watched_nested : (r.watched ks).session.nested = r.session.nested := by
  obtain ⟨s, o, deps, missing⟩ := r
  cases o <;> rfl

@[simp] theorem watched_cancelled : (r.watched ks).session.cancelled = r.session.cancelled := by
  obtain ⟨s, o, deps, missing⟩ := r
  cases o <;> rfl

@[simp] theorem watched_observer : (r.watched ks).observer = r.observer := by
  obtain ⟨s, o, deps, missing⟩ := r
  cases o <;> rfl

@[simp] theorem watched_world :
    (r.watched ks).session.world = S.worldAfter r.session.world (Task.around r.observer) := by
  obtain ⟨s, o, deps, missing⟩ := r
  cases o <;> rfl

@[simp] theorem watched_deps : (r.watched ks).deps = Listing.addAll r.deps ks := by
  obtain ⟨s, o, deps, missing⟩ := r
  cases o <;> rfl

@[simp] theorem watched_missing :
    (r.watched ks).missing = Listing.addAll r.missing (r.session.store.missing ks) := by
  obtain ⟨s, o, deps, missing⟩ := r
  cases o <;> rfl

end Running

namespace Task

theorem run_request_answer {nest : Nest S} {r : Running S} (live : r.session.isCancelled = false)
    (ks : List S.Key) (next : Except Suspension (Values S ks) → Task S α) :
    (request ks next).run nest r =
      (next ((r.notify S.beforeRequest).answer ks)).run nest (r.watched ks) := by
  simp only [run, live, Bool.false_eq_true, ite_false]
  rfl

theorem run_request {nest : Nest S} {r : Running S} (live : r.session.isCancelled = false)
    (ks : List S.Key) (next : Except Suspension (Values S ks) → Task S α) :
    (request ks next).run nest r =
      (next (match r.session.store.values? ks with
        | some vs => .ok vs
        | none => .error .notReady)).run nest (r.watched ks) := by
  have hanswer : (r.notify S.beforeRequest).answer ks = r.answer ks := by
    simp only [Running.answer, Running.notify_store]
  rw [run_request_answer live, hanswer]
  rfl

theorem run_request_cancelled {nest : Nest S} {r : Running S} (h : r.session.isCancelled = true)
    (ks : List S.Key) (next : Except Suspension (Values S ks) → Task S α) :
    (request ks next).run nest r = (next (.error .cancelled)).run nest r := by
  simp only [run, h, ite_true]

structure Leaves (s s' : Session S) (es : List S.Effect) : Prop where
  store : s'.store = s.store
  nested : s'.nested = s.nested
  world : s'.world = S.worldAfter s.world es

theorem Leaves.trans {s s' s'' : Session S} {es fs : List S.Effect} (h : Leaves s s' es)
    (h' : Leaves s' s'' fs) : Leaves s s'' (es ++ fs) :=
  ⟨h'.store.trans h.store, h'.nested.trans h.nested, by
    rw [h'.world, h.world, KeySpace.worldAfter_append]⟩

theorem leaves_watched (r : Running S) (ks : List S.Key) :
    Leaves r.session (r.watched ks).session (around r.observer) :=
  ⟨r.watched_store ks, r.watched_nested ks, r.watched_world ks⟩

theorem run_stops (nest : Nest S) {e : Suspension} {t : Task S (Except Suspension α)}
    (h : Stops e t.uninterrupted) (r : Running S) :
    (t.run nest r).1 = .error e ∧ (t.run nest r).2.deps = r.deps ∧
      (t.run nest r).2.missing = r.missing ∧
      ∃ es, Leaves r.session (t.run nest r).2.session es := by
  induction t generalizing r with
  | done a =>
      cases h
      exact ⟨rfl, rfl, rfl, [], ⟨rfl, rfl, rfl⟩⟩
  | request ks next ih => cases h
  | isCancelled next ih => cases h
  | cancel next ih =>
      obtain ⟨hr, hd, hm, es, hes⟩ :=
        ih h { r with session := { r.session with cancelled := true } }
      exact ⟨hr, hd, hm, es, ⟨hes.store, hes.nested, hes.world⟩⟩
  | observe o next ih =>
      cases h with
      | observe h => exact ih r.observer (h _) { r with observer := o }
  | perform effect next ih =>
      cases h with
      | perform h =>
        obtain ⟨hr, hd, hm, es, hes⟩ := ih h { r with session := r.session.perform effect }
        exact ⟨hr, hd, hm, effect :: es, ⟨hes.store, hes.nested, hes.world⟩⟩
  | log entry next ih =>
      cases h with
      | log h =>
        obtain ⟨hr, hd, hm, es, hes⟩ :=
          ih h { r with session := { r.session with log := r.session.log ++ [entry] } }
        exact ⟨hr, hd, hm, es, ⟨hes.store, hes.nested, hes.world⟩⟩
  | nested k next ih => cases h
  | commit cs next ih => cases h

/-- What a run of a lawful task comes to: it is replayed by the store if it completes. -/
theorem run_lawful (nest : Nest S) {t : Task S (Except Suspension α)}
    (h : t.uninterrupted.Lawful) (r : Running S) :
    ∃ es, Leaves r.session (t.run nest r).2.session es ∧ ∀ v, (t.run nest r).1 = .ok v →
      ∃ q, t.replay r.session.store r.observer = some q ∧ q.result = .ok v ∧ q.effects = es ∧
        (t.run nest r).2.deps = Listing.addAll r.deps q.requested := by
  induction t generalizing r with
  | done a => exact ⟨[], ⟨rfl, rfl, rfl⟩, fun v hv => ⟨_, rfl, hv, rfl, rfl⟩⟩
  | request ks next ih =>
      cases h with
      | request ok stops =>
        by_cases live : r.session.isCancelled = false
        · rw [run_request live]
          cases hvs : r.session.store.values? ks with
          | none =>
              obtain ⟨he, _, _, es, hes⟩ := run_stops nest (stops .notReady) (r.watched ks)
              refine ⟨_, (leaves_watched r ks).trans hes, fun v hv => ?_⟩
              rw [he] at hv
              cases hv
          | some vs =>
              obtain ⟨es, hes, completes⟩ := ih (.ok vs) (ok vs) (r.watched ks)
              refine ⟨_, (leaves_watched r ks).trans hes, fun v hv => ?_⟩
              obtain ⟨q, hq, hqv, rfl, hd⟩ := completes v hv
              rw [r.watched_store, r.watched_observer] at hq
              refine ⟨q.after ks (around r.observer), ?_, hqv, rfl, ?_⟩
              · simp only [replay, hvs, hq, Option.map_some]
              · exact hd.trans (by simp [Listing.addAll_append])
        · obtain ⟨he, _, _, es, hes⟩ := run_stops nest (stops .cancelled) r
          rw [run_request_cancelled (by simpa using live)]
          refine ⟨es, hes, fun v hv => ?_⟩
          rw [he] at hv
          cases hv
  | isCancelled next ih => cases h
  | cancel next ih =>
      obtain ⟨es, hes, completes⟩ :=
        ih h { r with session := { r.session with cancelled := true } }
      exact ⟨es, ⟨hes.store, hes.nested, hes.world⟩, completes⟩
  | observe o next ih =>
      cases h with
      | observe h => exact ih r.observer (h _) { r with observer := o }
  | perform effect next ih =>
      cases h with
      | perform h =>
        obtain ⟨es, hes, completes⟩ := ih h { r with session := r.session.perform effect }
        refine ⟨effect :: es, ⟨hes.store, hes.nested, hes.world⟩, fun v hv => ?_⟩
        obtain ⟨q, hq, hqv, rfl, hd⟩ := completes v hv
        refine ⟨q.after [] [effect], ?_, hqv, rfl, hd⟩
        exact congrArg (Option.map (Replay.after [] [effect])) hq
  | log entry next ih =>
      cases h with
      | log h =>
        obtain ⟨es, hes, completes⟩ :=
          ih h { r with session := { r.session with log := r.session.log ++ [entry] } }
        exact ⟨es, ⟨hes.store, hes.nested, hes.world⟩, completes⟩
  | nested k next ih => cases h
  | commit cs next ih => cases h

theorem Stops.run_cancelled (nest : Nest S) {e : Suspension} {t : Task S (Except Suspension α)}
    (h : Stops e t) (r : Running S) :
    (t.run nest r).2.session.cancelled = r.session.cancelled := by
  induction h generalizing r with
  | done => rfl
  | observe _ ih => exact ih _ _
  | perform _ ih => exact ih _
  | log _ ih => exact ih _

/-- A lawful task does not cancel the request that it is run for. -/
theorem Lawful.run_cancelled (nest : Nest S) {t : Task S (Except Suspension α)} (h : t.Lawful)
    (r : Running S) : (t.run nest r).2.session.cancelled = r.session.cancelled := by
  induction h generalizing r with
  | done => rfl
  | @request ks next _ stops ih =>
      by_cases live : r.session.isCancelled = false
      · rw [run_request live]
        cases r.session.store.values? ks with
        | none => exact ((stops _).run_cancelled nest _).trans (r.watched_cancelled ks)
        | some vs => exact (ih vs _).trans (r.watched_cancelled ks)
      · rw [run_request_cancelled (by simpa using live)]
        exact (stops _).run_cancelled nest r
  | observe _ ih => exact ih _ _
  | perform _ ih => exact ih _
  | log _ ih => exact ih _

/-- A run of a lawful task whose replay a larger store completes: it completes likewise, or it
misses keys that the replay requests. -/
theorem run_within (nest : Nest S) {t : Task S (Except Suspension α)} (h : t.Lawful)
    {c : Store S} {r : Running S} (live : r.session.isCancelled = false)
    (within : r.session.store.Within c) {q : Replay S (Except Suspension α)} {v : α}
    (hq : t.replay c r.observer = some q) (hv : q.result = .ok v) :
    ((t.run nest r).1 = .ok v ∧ (t.run nest r).2.deps = Listing.addAll r.deps q.requested) ∨
      ((t.run nest r).1 = .error .notReady ∧
        (∃ k ∈ (t.run nest r).2.missing, k ∈ q.requested ∧ r.session.store.contains k = false) ∧
        ∀ k ∈ (t.run nest r).2.missing,
          k ∈ r.missing ∨ (k ∈ q.requested ∧ r.session.store.contains k = false)) := by
  induction h generalizing r q with
  | done a =>
      cases hq
      exact .inl ⟨hv, rfl⟩
  | @request ks next ok stops ih =>
      obtain ⟨vs, p, hvs, hp, rfl⟩ := replay_request hq
      have hpv : p.result = .ok v := hv
      rw [run_request live]
      have hadded : ∀ k, k ∈ Listing.addAll r.missing (r.session.store.missing ks) ↔
          k ∈ r.missing ∨ k ∈ ks ∧ r.session.store.contains k = false := by
        intro k
        simp [Listing.mem_addAll, Store.missing]
      cases hs : r.session.store.values? ks with
      | none =>
          obtain ⟨he, _, hm, _⟩ :=
            run_stops nest ((stops .notReady).uninterrupted_eq.symm ▸ stops .notReady)
              (r.watched ks)
          refine .inr ⟨he, ?_, ?_⟩
          · obtain ⟨k, hk, hn⟩ := Store.exists_of_values?_eq_none hs
            refine ⟨k, ?_, List.mem_append_left _ hk, hn⟩
            rw [hm, r.watched_missing]
            exact (hadded k).mpr (.inr ⟨hk, hn⟩)
          · intro k hk
            rw [hm, r.watched_missing] at hk
            rcases (hadded k).mp hk with hk | ⟨hk, hn⟩
            · exact .inl hk
            · exact .inr ⟨List.mem_append_left _ hk, hn⟩
      | some vs' =>
          have same : vs' = vs := by
            have hcongr : c.values? ks = r.session.store.values? ks :=
              Store.values?_congr fun k hk => within.value?_eq (Store.contains_of_mem_values? hs k hk)
            rw [hs, hvs] at hcongr
            exact (Option.some.inj hcongr).symm
          subst same
          have hlive : (r.watched ks).session.isCancelled = false := by
            simpa [Session.isCancelled] using live
          have hwithin : (r.watched ks).session.store.Within c := by simpa using within
          have hnone : ∀ k ∈ (r.watched ks).missing, k ∈ r.missing := by
            intro k hk
            rw [r.watched_missing] at hk
            rcases (hadded k).mp hk with hk | ⟨hk, hn⟩
            · exact hk
            · rw [Store.contains_of_mem_values? hs k hk] at hn
              cases hn
          rcases ih vs' hlive hwithin (by simpa using hp) hpv with
            ⟨hr, hd⟩ | ⟨hr, ⟨k, hk, hkq, hn⟩, hall⟩
          · exact .inl ⟨hr, hd.trans (by simp [Listing.addAll_append])⟩
          · refine .inr ⟨hr, ⟨k, hk, List.mem_append_right _ hkq, by simpa using hn⟩, ?_⟩
            intro l hl
            rcases hall l hl with hl | ⟨hl, hn⟩
            · exact .inl (hnone l hl)
            · exact .inr ⟨List.mem_append_right _ hl, by simpa using hn⟩
  | @observe o next _ ih =>
      exact ih r.observer (r := { r with observer := o }) live within hq hv
  | @perform effect next _ ih =>
      obtain ⟨p, hp, rfl⟩ := Option.map_eq_some_iff.mp hq
      exact ih (r := { r with session := r.session.perform effect }) (q := p) live within hp hv
  | @log entry next _ ih =>
      exact ih (r := { r with session := { r.session with log := r.session.log ++ [entry] } })
        live within hq hv

theorem run_of_replay (nest : Nest S) {t : Task S (Except Suspension α)} (h : t.Lawful)
    {r : Running S} (live : r.session.isCancelled = false) {q : Replay S (Except Suspension α)}
    {v : α} (hq : t.replay r.session.store r.observer = some q) (hv : q.result = .ok v) :
    (t.run nest r).1 = .ok v ∧ (t.run nest r).2.deps = Listing.addAll r.deps q.requested := by
  rcases run_within nest h live (fun _ _ hv => hv) hq hv with hr | ⟨_, ⟨k, _, hk, hn⟩, _⟩
  · exact hr
  · rw [replay_contains hq k hk] at hn
    cases hn

end Task
end BuildAnalysis.Engine
