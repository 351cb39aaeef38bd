import BuildAnalysis.Proofs.Analysis.Evaluation

/-!
# Evaluations that come to an end

A lawful demand that is run is suspended for one reason only: a value that it requests is not there.
So it comes to an end where the store has whatever it goes on to request. What it requests depends
on the values that it has got, so the second part of a bound demand must come to an end only for
what the first part yields.
-/
namespace BuildAnalysis.Engine

variable {S : KeySpace} {α β : Type} {s : Store S}

namespace Store

theorem exists_values? {ks : List S.Key} (h : ∀ k ∈ ks, s.contains k = true) :
    ∃ vs, s.values? ks = some vs := by
  cases hvs : s.values? ks with
  | some vs => exact ⟨vs, rfl⟩
  | none =>
      obtain ⟨k, hk, hmissing⟩ := exists_of_values?_eq_none hvs
      rw [h k hk] at hmissing
      cases hmissing

end Store

namespace Demand

/-- On the store the demand comes to a value, under every observer. -/
def Ends (s : Store S) (d : Demand S α) : Prop :=
  ∀ o, ∃ q a, Task.replay s d.run o = some q ∧ q.result = .ok a

theorem ends_pure (a : α) : Ends s (pure a : Demand S α) := fun _ => ⟨_, a, rfl, rfl⟩

theorem Ends.bind {d : Demand S α} {f : α → Demand S β} (hd : Ends s d)
    (hf : ∀ a ks es, d.Yields s a ks es → Ends s (f a)) : Ends s (d >>= f) := by
  intro o
  obtain ⟨q, a, hq, ha⟩ := hd o
  obtain ⟨p, b, hp, hb⟩ := hf a _ _ ⟨o, q, hq, ha, rfl, rfl⟩ q.observer
  have hcont : (ExceptT.bindCont f q.result).replay s q.observer = some p := by
    rw [ha]
    exact hp
  refine ⟨p.after q.requested q.effects, b, ?_, hb⟩
  change (Task.bind d.run (ExceptT.bindCont f)).replay s o = _
  rw [Task.replay_bind, hq, Option.bind_some, hcont, Option.map_some]

theorem ends_of_map_request {keys : List S.Key} {f : Values S keys → α}
    (h : ∀ k ∈ keys, s.contains k = true) :
    Ends s (Task.request keys fun r => .done (r.map f) : Demand S α) := by
  intro o
  obtain ⟨vs, hvs⟩ := Store.exists_values? h
  have hreplay : Task.replay s (Task.request keys fun r => .done (r.map f)) o =
      some (Replay.after keys (Task.around o) ⟨Except.ok (f vs), o, [], []⟩) := by
    simp [Task.replay, hvs, Except.map]
  exact ⟨_, f vs, hreplay, rfl⟩

theorem ends_values₂ {α' β' : Type} {key : α → S.Key} {read : (a : α) → S.Value (key a) → β}
    {key' : α' → S.Key} {read' : (a : α') → S.Value (key' a) → β'} {as : List α} {as' : List α'}
    (h : ∀ a ∈ as, s.contains (key a) = true) (h' : ∀ a ∈ as', s.contains (key' a) = true) :
    Ends s (values₂ key read key' read' as as') := by
  refine ends_of_map_request fun k hk => ?_
  rcases List.mem_append.mp hk with hk | hk
  · obtain ⟨a, ha, rfl⟩ := List.mem_map.mp hk
    exact h a ha
  · obtain ⟨a, ha, rfl⟩ := List.mem_map.mp hk
    exact h' a ha

/-- A lawful demand that comes to an end does so when it is run, unless it is cancelled. -/
theorem Ends.exists_run {d : Demand S α} {r : Running S} (h : Ends r.session.store d)
    (lawful : Lawful d) (live : r.session.isCancelled = false) (nest : Nest S) :
    ∃ a, (Task.run nest d.run r).1 = .ok a := by
  obtain ⟨q, a, hq, ha⟩ := h r.observer
  exact ⟨a, (Task.run_of_replay nest lawful live hq ha).1⟩

end Demand
end BuildAnalysis.Engine

namespace BuildAnalysis.Staged

open Engine.Demand (ends_pure)

variable {ε σ α β : Type} {s : Engine.Store analysisSpace} {f : σ}

/-- On the store and from the state on, the evaluation comes to a value or a failure. -/
def Ends (s : Engine.Store analysisSpace) (f : σ) (e : Staged ε σ α) : Prop :=
  Engine.Demand.Ends s (e.runFrom f)

theorem Ends.pure (a : α) : Ends s f (pure a : Staged ε σ α) := ends_pure _

theorem Ends.throw (x : ε) : Ends s f (throw x : Staged ε σ α) := ends_pure _

/-- What is bound to an evaluation must come to an end from whatever the evaluation yields. -/
theorem Ends.bind {e : Staged ε σ α} {g : α → Staged ε σ β} (he : Ends s f e)
    (hg : ∀ a f' ks, Yields s f e (.ok a) f' ks → Ends s f' (g a)) : Ends s f (e >>= g) := by
  refine Engine.Demand.Ends.bind he fun p ks es hp => ?_
  obtain ⟨r, f'⟩ := p
  cases r with
  | ok a => exact hg a f' ks ⟨es, hp⟩
  | error x => exact ends_pure _

theorem Ends.request {d : Demand α} (h : Engine.Demand.Ends s d) :
    Ends s f (ExceptT.lift (StateT.lift d) : Staged ε σ α) :=
  Engine.Demand.Ends.bind (Engine.Demand.Ends.bind h fun _ _ _ _ => ends_pure _)
    fun _ _ _ _ => ends_pure _

theorem Ends.get : Ends s f (ExceptT.lift get : Staged ε σ σ) :=
  Engine.Demand.Ends.bind (ends_pure _) fun _ _ _ _ => ends_pure _

theorem Ends.modify (g : σ → σ) : Ends s f (ExceptT.lift (modify g) : Staged ε σ PUnit) :=
  Engine.Demand.Ends.bind (ends_pure _) fun _ _ _ _ => ends_pure _

theorem Ends.exists_run {e : Staged ε σ α} {r : Engine.Running analysisSpace}
    (h : Ends r.session.store f e) (lawful : e.Lawful) (live : r.session.isCancelled = false)
    (nest : Engine.Nest analysisSpace) :
    ∃ result f' ks, ((e.runFrom f).run.run nest r).1 = .ok (result, f') ∧
      Yields r.session.store f e result f' ks := by
  obtain ⟨⟨result, f'⟩, hrun⟩ := Engine.Demand.Ends.exists_run h (lawful f) live nest
  obtain ⟨ks, es, hyields⟩ := Engine.Demand.yields_of_run (lawful f) hrun
  exact ⟨result, f', ks, hrun, es, hyields⟩

end BuildAnalysis.Staged
