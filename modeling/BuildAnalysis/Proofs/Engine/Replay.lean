import BuildAnalysis.Engine.Run

/-!
# Replaying a task on a store

A replay runs a task with a fixed store that answers every request. It has a result only if the
store holds every requested value and the task asks for nothing but values. A lawful task does ask
for nothing else and stops at the first request without values; a task that is cancelled from
outside becomes lawful once the cancellations are taken out. Main statements: a run of a lawful
task that completes is its replay on the store of the session, and a replay depends on the values
of the requested keys only.
-/
namespace BuildAnalysis.Engine

variable {S : KeySpace} {α β : Type}

structure Replay (S : KeySpace) (α : Type) where
  result : α
  /-- The observer that is set at the end. -/
  observer : Option S.Observer
  requested : List S.Key := []
  effects : List S.Effect := []

/-- A replay that follows some requests and effects. -/
def Replay.after (ks : List S.Key) (es : List S.Effect) (q : Replay S α) : Replay S α :=
  { q with requested := ks ++ q.requested, effects := es ++ q.effects }

@[simp] theorem Replay.after_result (ks : List S.Key) (es : List S.Effect) (q : Replay S α) :
    (q.after ks es).result = q.result := rfl

@[simp] theorem Replay.after_observer (ks : List S.Key) (es : List S.Effect) (q : Replay S α) :
    (q.after ks es).observer = q.observer := rfl

@[simp] theorem Replay.after_requested (ks : List S.Key) (es : List S.Effect) (q : Replay S α) :
    (q.after ks es).requested = ks ++ q.requested := rfl

@[simp] theorem Replay.after_effects (ks : List S.Key) (es : List S.Effect) (q : Replay S α) :
    (q.after ks es).effects = es ++ q.effects := rfl

theorem Replay.after_after (ks ls : List S.Key) (es fs : List S.Effect) (q : Replay S α) :
    (q.after ls fs).after ks es = q.after (ks ++ ls) (es ++ fs) := by
  simp [Replay.after]

@[simp] theorem Replay.after_nil : (Replay.after [] [] : Replay S α → Replay S α) = id := rfl

namespace Store

@[simp] theorem values?_nil (s : Store S) : s.values? [] = some .nil := rfl

theorem contains_of_value? {s : Store S} {k : S.Key} {v : S.Value k} (h : s.value? k = some v) :
    s.contains k = true := by simp [contains, h]

theorem contains_of_mem_values? {s : Store S} {ks : List S.Key} {vs : Values S ks}
    (h : s.values? ks = some vs) : ∀ k ∈ ks, s.contains k = true := by
  induction ks with
  | nil => simp
  | cons k ks ih =>
      simp only [values?] at h
      split at h
      next v vs' hk hks =>
        intro l hl
        rcases List.mem_cons.mp hl with rfl | hl
        · exact contains_of_value? hk
        · exact ih hks l hl
      next => cases h

theorem exists_of_values?_eq_none {s : Store S} {ks : List S.Key} (h : s.values? ks = none) :
    ∃ k ∈ ks, s.contains k = false := by
  induction ks with
  | nil => simp at h
  | cons k ks ih =>
      cases hk : s.value? k with
      | none => exact ⟨k, by simp, by simp [contains, hk]⟩
      | some v =>
          cases hks : s.values? ks with
          | none =>
              obtain ⟨l, hl, hn⟩ := ih hks
              exact ⟨l, List.mem_cons_of_mem _ hl, hn⟩
          | some vs => simp [values?, hk, hks] at h

theorem values?_congr {s s' : Store S} {ks : List S.Key}
    (h : ∀ k ∈ ks, s'.value? k = s.value? k) : s'.values? ks = s.values? ks := by
  induction ks with
  | nil => rfl
  | cons k ks ih =>
      simp only [values?, h k List.mem_cons_self,
        ih fun l hl => h l (List.mem_cons_of_mem _ hl)]

/-- Every value of the first store is the value of that key in the second. -/
def Within (s t : Store S) : Prop := ∀ k v, s.value? k = some v → t.value? k = some v

theorem Within.contains {s t : Store S} (h : s.Within t) {k : S.Key} (hk : s.contains k = true) :
    t.contains k = true := by
  obtain ⟨v, hv⟩ := Option.isSome_iff_exists.mp hk
  exact contains_of_value? (h k v hv)

theorem Within.value?_eq {s t : Store S} (h : s.Within t) {k : S.Key} (hk : s.contains k = true) :
    t.value? k = s.value? k := by
  obtain ⟨v, hv⟩ := Option.isSome_iff_exists.mp hk
  rw [hv, h k v hv]

end Store

namespace Task

/-- What an observer does around a request. -/
def around : Option S.Observer → List S.Effect
  | some o => [S.beforeRequest o, S.afterRequest o]
  | none => []

/-- Runs a task with a store that answers its requests. -/
def replay (s : Store S) : Task S α → Option S.Observer → Option (Replay S α)
  | done a, o => some { result := a, observer := o }
  | request ks next, o =>
    match s.values? ks with
    | none => none
    | some vs => ((next (.ok vs)).replay s o).map (Replay.after ks (around o))
  | isCancelled _, _ => none
  | cancel next, o => next.replay s o
  | observe o' next, o => (next o).replay s o'
  | perform e next, o => (next.replay s o).map (Replay.after [] [e])
  | log _ next, o => next.replay s o
  | nested _ _, _ => none
  | commit _ _, _ => none

theorem replay_request {s : Store S} {ks : List S.Key}
    {next : Except Suspension (Values S ks) → Task S α} {o : Option S.Observer} {q : Replay S α}
    (h : (request ks next).replay s o = some q) :
    ∃ vs p, s.values? ks = some vs ∧ (next (.ok vs)).replay s o = some p ∧
      q = p.after ks (around o) := by
  simp only [replay] at h
  split at h
  next => cases h
  next vs hvs =>
    obtain ⟨p, hp, rfl⟩ := Option.map_eq_some_iff.mp h
    exact ⟨vs, p, hvs, hp, rfl⟩

theorem replay_bind (s : Store S) (t : Task S α) (f : α → Task S β) (o : Option S.Observer) :
    (t.bind f).replay s o = (t.replay s o).bind fun q =>
      ((f q.result).replay s q.observer).map (Replay.after q.requested q.effects) := by
  induction t generalizing o with
  | done a => simp [Task.bind, replay]
  | request ks next ih =>
      simp only [Task.bind, replay]
      split
      next => rfl
      next vs _ => simp [ih, Option.map_bind, Function.comp_def, Replay.after_after,
        Option.bind_map]
  | isCancelled next ih => rfl
  | cancel next ih => exact ih o
  | observe o' next ih => exact ih o o'
  | perform e next ih =>
      simp [Task.bind, replay, ih, Option.map_bind, Function.comp_def, Replay.after_after,
        Option.bind_map]
  | log entry next ih => exact ih o
  | nested k next ih => rfl
  | commit cs next ih => rfl

/-- Whatever a replay requested had a value. -/
theorem replay_contains {s : Store S} {t : Task S α} {o : Option S.Observer} {q : Replay S α}
    (h : t.replay s o = some q) : ∀ k ∈ q.requested, s.contains k = true := by
  induction t generalizing o q with
  | done a => cases h; simp
  | request ks next ih =>
      obtain ⟨vs, p, hvs, hp, rfl⟩ := replay_request h
      intro k hk
      rcases List.mem_append.mp hk with hk | hk
      · exact Store.contains_of_mem_values? hvs k hk
      · exact ih _ hp k hk
  | isCancelled next ih => cases h
  | cancel next ih => exact ih h
  | observe o' next ih => exact ih _ h
  | perform e next ih =>
      obtain ⟨p, hp, rfl⟩ := Option.map_eq_some_iff.mp h
      simpa using ih hp
  | log entry next ih => exact ih h
  | nested k next ih => cases h
  | commit cs next ih => cases h

/-- A replay only depends on the values of the keys that it requests. -/
theorem replay_congr {s s' : Store S} {t : Task S α} {o : Option S.Observer} {q : Replay S α}
    (h : t.replay s o = some q) (hs : ∀ k ∈ q.requested, s'.value? k = s.value? k) :
    t.replay s' o = some q := by
  induction t generalizing o q with
  | done a => exact h
  | request ks next ih =>
      obtain ⟨vs, p, hvs, hp, rfl⟩ := replay_request h
      have hks : s'.values? ks = some vs := by
        rw [Store.values?_congr fun k hk => hs k (List.mem_append_left _ hk), hvs]
      have hn := ih _ hp fun k hk => hs k (List.mem_append_right _ hk)
      simp [replay, hks, hn]
  | isCancelled next ih => cases h
  | cancel next ih => exact ih h hs
  | observe o' next ih => exact ih _ h hs
  | perform e next ih =>
      obtain ⟨p, hp, rfl⟩ := Option.map_eq_some_iff.mp h
      simp [replay, ih hp (by simpa using hs)]
  | log entry next ih => exact ih h hs
  | nested k next ih => cases h
  | commit cs next ih => cases h

inductive Stops (e : Suspension) : Task S (Except Suspension α) → Prop
  | done : Stops e (done (.error e))
  | observe {o next} (h : ∀ o, Stops e (next o)) : Stops e (observe o next)
  | perform {effect next} (h : Stops e next) : Stops e (perform effect next)
  | log {entry next} (h : Stops e next) : Stops e (log entry next)

/-- The task requests values, asks for nothing else and stops at the first request without
values. -/
inductive Lawful : Task S (Except Suspension α) → Prop
  | done (r) : Lawful (done r)
  | request {ks next} (ok : ∀ vs, Lawful (next (.ok vs))) (stops : ∀ e, Stops e (next (.error e))) :
      Lawful (request ks next)
  | observe {o next} (h : ∀ o, Lawful (next o)) : Lawful (observe o next)
  | perform {effect next} (h : Lawful next) : Lawful (perform effect next)
  | log {entry next} (h : Lawful next) : Lawful (log entry next)

/-- The task without its cancellations. -/
def uninterrupted : Task S α → Task S α
  | done a => done a
  | request ks next => request ks fun r => (next r).uninterrupted
  | isCancelled next => isCancelled fun b => (next b).uninterrupted
  | cancel next => next.uninterrupted
  | observe o next => observe o fun previous => (next previous).uninterrupted
  | perform e next => perform e next.uninterrupted
  | log entry next => log entry next.uninterrupted
  | nested k next => nested k fun r => (next r).uninterrupted
  | commit cs next => commit cs next.uninterrupted

theorem replay_uninterrupted (s : Store S) (t : Task S α) (o : Option S.Observer) :
    t.uninterrupted.replay s o = t.replay s o := by
  induction t generalizing o with
  | done a => rfl
  | request ks next ih => simp only [uninterrupted, replay, ih]
  | isCancelled next ih => rfl
  | cancel next ih => exact ih o
  | observe o' next ih => exact ih o o'
  | perform e next ih => simp only [uninterrupted, replay, ih]
  | log entry next ih => exact ih o
  | nested k next ih => rfl
  | commit cs next ih => rfl

theorem Stops.uninterrupted_eq {e : Suspension} {t : Task S (Except Suspension α)}
    (h : Stops e t) : t.uninterrupted = t := by
  induction h with
  | done => rfl
  | observe _ ih => simp only [uninterrupted, ih]
  | perform _ ih => simp only [uninterrupted, ih]
  | log _ ih => simp only [uninterrupted, ih]

theorem Lawful.uninterrupted_eq {t : Task S (Except Suspension α)} (h : t.Lawful) :
    t.uninterrupted = t := by
  induction h with
  | done r => rfl
  | @request ks next _ stops ih =>
      simp only [uninterrupted]
      congr 1
      funext r
      cases r with
      | ok vs => exact ih vs
      | error e => exact (stops e).uninterrupted_eq
  | observe _ ih => simp only [uninterrupted, ih]
  | perform _ ih => simp only [uninterrupted, ih]
  | log _ ih => simp only [uninterrupted, ih]

end Task
end BuildAnalysis.Engine
