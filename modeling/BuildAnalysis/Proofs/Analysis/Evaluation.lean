import BuildAnalysis.Analysis.Implementation
import BuildAnalysis.Proofs.Engine.Demand

/-!
# Evaluations on a store

Evaluations and running implementations are demands that may fail and carry a state. They are put
together from requests and from steps that only look at the state or change it. Whatever is put
together from parts with a property of demands has it too, if demands keep it when they are bound;
and what it yields on a store is yielded part by part.
-/
namespace BuildAnalysis

/-- A demand that may fail and carries a state. -/
abbrev Staged (ε σ α : Type) := ExceptT ε (StateT σ Demand) α

namespace Staged

variable {ε σ α β : Type}

/-- The demand from a state on. -/
def runFrom (e : Staged ε σ α) (f : σ) : Demand (Except ε α × σ) := StateT.run (ExceptT.run e) f

/-- What a run came to, if it ended with a value, and the state at its end. -/
def ended? {ε' : Type} : Except ε' (Except ε α × σ) → Option (α × σ)
  | .ok (.ok a, f) => some (a, f)
  | _ => none

theorem ended?_eq_some {ε' : Type} {r : Except ε' (Except ε α × σ)} {a : α} {f : σ}
    (h : ended? r = some (a, f)) : r = .ok (.ok a, f) := by
  unfold ended? at h
  split at h
  next =>
    cases h
    rfl
  next => cases h

/-- From every state on the demand has a property. -/
def Has (D : {α : Type} → Demand α → Prop) (e : Staged ε σ α) : Prop := ∀ f, D (e.runFrom f)

/-- Lawful from every state on. -/
def Lawful (e : Staged ε σ α) : Prop := ∀ f, Engine.Demand.Lawful (e.runFrom f)

section
open Engine.Demand (Composed)

variable {D : {α : Type} → Demand α → Prop} [Composed D]

theorem Has.pure (a : α) : Has D (pure a : Staged ε σ α) := fun _ => Composed.pure _

theorem Has.throw (x : ε) : Has D (throw x : Staged ε σ α) := fun _ => Composed.pure _

theorem Has.ofExcept (r : Except ε α) : Has D (ExceptT.mk (Pure.pure r) : Staged ε σ α) :=
  fun _ => Composed.pure _

theorem Has.lift {t : StateT σ Demand α} (h : ∀ f, D (t.run f)) :
    Has D (ExceptT.lift t : Staged ε σ α) :=
  fun f => Composed.bind (h f) fun _ => Composed.pure _

theorem Has.request {d : Demand α} (h : D d) :
    Has D (ExceptT.lift (StateT.lift d) : Staged ε σ α) :=
  .lift fun _ => Composed.bind h fun _ => Composed.pure _

theorem Has.get : Has D (ExceptT.lift get : Staged ε σ σ) := .lift fun _ => Composed.pure _

theorem Has.modify (g : σ → σ) : Has D (ExceptT.lift (modify g) : Staged ε σ PUnit) :=
  .lift fun _ => Composed.pure _

theorem Has.bind {e : Staged ε σ α} {g : α → Staged ε σ β} (h : e.Has D)
    (hg : ∀ a, (g a).Has D) : (e >>= g).Has D := by
  intro f
  refine Composed.bind (h f) fun p => ?_
  obtain ⟨r, f'⟩ := p
  cases r with
  | ok a => exact hg a f'
  | error x => exact Composed.pure _

theorem Has.tryCatch {e : Staged ε σ α} {g : ε → Staged ε σ α} (h : e.Has D)
    (hg : ∀ x, (g x).Has D) : (tryCatch e g).Has D := by
  intro f
  refine Composed.bind (h f) fun p => ?_
  obtain ⟨r, f'⟩ := p
  cases r with
  | ok a => exact Composed.pure _
  | error x => exact hg x f'

theorem Has.forM {as : List α} {g : α → Staged ε σ PUnit} (h : ∀ a ∈ as, (g a).Has D) :
    Has D (as.forM g) := by
  induction as with
  | nil => exact .pure _
  | cons a as ih =>
      exact (h a List.mem_cons_self).bind fun _ => ih fun b hb => h b (List.mem_cons_of_mem _ hb)

end

/-- On a store and from a state on, the result, the state at the end and the keys requested. -/
def Yields (s : Engine.Store analysisSpace) (f : σ) (e : Staged ε σ α) (r : Except ε α) (f' : σ)
    (ks : List AnalysisKey) : Prop :=
  ∃ es, Engine.Demand.Yields s (e.runFrom f) (r, f') ks es

variable {s : Engine.Store analysisSpace} {f f' : σ} {ks : List AnalysisKey}

/-- A settled demand has one result, whoever observes it. -/
theorem Yields.unique {e : Staged ε σ α} (he : e.Has Engine.Demand.Settled) {r r' : Except ε α}
    {f₁ f₂ : σ} {ks ls : List AnalysisKey} (h : Yields s f e r f₁ ks)
    (h' : Yields s f e r' f₂ ls) : r = r' ∧ f₁ = f₂ := by
  obtain ⟨es, h⟩ := h
  obtain ⟨es', h'⟩ := h'
  exact Prod.mk.inj (he f s _ _ _ _ _ _ h h')

theorem Yields.of_pure {a : α} {r : Except ε α} (h : Yields s f (pure a) r f' ks) :
    r = .ok a ∧ f' = f ∧ ks = [] := by
  obtain ⟨es, h⟩ := h
  obtain ⟨hr, hks, _⟩ := Engine.Demand.Yields.of_pure h
  exact ⟨congrArg Prod.fst hr, congrArg Prod.snd hr, hks⟩

theorem Yields.of_pure_ok {a b : α} (h : Yields s f (pure a : Staged ε σ α) (.ok b) f' ks) :
    b = a ∧ f' = f ∧ ks = [] := by
  obtain ⟨hb, hf, hks⟩ := h.of_pure
  exact ⟨Except.ok.inj hb, hf, hks⟩

theorem Yields.of_ofExcept {x r : Except ε α}
    (h : Yields s f (ExceptT.mk (Pure.pure x) : Staged ε σ α) r f' ks) :
    r = x ∧ f' = f ∧ ks = [] := by
  obtain ⟨es, h⟩ := h
  obtain ⟨hr, hks, _⟩ := Engine.Demand.Yields.of_pure h
  exact ⟨congrArg Prod.fst hr, congrArg Prod.snd hr, hks⟩

theorem Yields.of_throw {x : ε} {r : Except ε α} (h : Yields s f (throw x) r f' ks) :
    r = .error x ∧ f' = f ∧ ks = [] := Yields.of_ofExcept (x := .error x) h

theorem Yields.of_lift {t : StateT σ Demand α} {r : Except ε α}
    (h : Yields s f (ExceptT.lift t) r f' ks) :
    ∃ a es, Engine.Demand.Yields s (t.run f) (a, f') ks es ∧ r = .ok a := by
  obtain ⟨es, h⟩ := h
  obtain ⟨⟨a, f₁⟩, ks₁, es₁, ks₂, es₂, ht, hr, rfl, rfl⟩ := Engine.Demand.Yields.of_bind h
  obtain ⟨heq, rfl, rfl⟩ := Engine.Demand.Yields.of_pure hr
  obtain ⟨rfl, rfl⟩ := Prod.mk.inj heq
  exact ⟨a, es₁, by rw [List.append_nil]; exact ht, rfl⟩

theorem Yields.of_request {d : Demand α} {r : Except ε α}
    (h : Yields s f (ExceptT.lift (StateT.lift d)) r f' ks) :
    ∃ a es, Engine.Demand.Yields s d a ks es ∧ r = .ok a ∧ f' = f := by
  obtain ⟨a, es, ht, rfl⟩ := Yields.of_lift h
  obtain ⟨b, ks₁, es₁, ks₂, es₂, hd, hr, rfl, rfl⟩ := Engine.Demand.Yields.of_bind ht
  obtain ⟨heq, rfl, rfl⟩ := Engine.Demand.Yields.of_pure hr
  obtain ⟨rfl, rfl⟩ := Prod.mk.inj heq
  exact ⟨a, es₁, by rw [List.append_nil]; exact hd, rfl, rfl⟩

theorem Yields.of_get {r : Except ε σ} (h : Yields s f (ExceptT.lift get) r f' ks) :
    r = .ok f ∧ f' = f ∧ ks = [] := by
  obtain ⟨a, es, ht, rfl⟩ := Yields.of_lift h
  obtain ⟨heq, hks, _⟩ := Engine.Demand.Yields.of_pure ht
  obtain ⟨rfl, rfl⟩ := Prod.mk.inj heq
  exact ⟨rfl, rfl, hks⟩

theorem Yields.of_modify {g : σ → σ} {r : Except ε PUnit}
    (h : Yields s f (ExceptT.lift (modify g)) r f' ks) : r = .ok () ∧ f' = g f ∧ ks = [] := by
  obtain ⟨a, es, ht, rfl⟩ := Yields.of_lift h
  obtain ⟨heq, hks, _⟩ := Engine.Demand.Yields.of_pure ht
  exact ⟨rfl, congrArg Prod.snd heq, hks⟩

/-- A bound evaluation either goes on with a value or fails where its first part did. -/
theorem Yields.of_bind {e : Staged ε σ α} {g : α → Staged ε σ β} {r : Except ε β}
    (h : Yields s f (e >>= g) r f' ks) :
    (∃ a f₁ ks₁ ks₂, Yields s f e (.ok a) f₁ ks₁ ∧ Yields s f₁ (g a) r f' ks₂ ∧
      ks = ks₁ ++ ks₂) ∨
    ∃ x, Yields s f e (.error x) f' ks ∧ r = .error x := by
  obtain ⟨es, h⟩ := h
  obtain ⟨⟨a, f₁⟩, ks₁, es₁, ks₂, es₂, he, hg, rfl, rfl⟩ := Engine.Demand.Yields.of_bind h
  cases a with
  | ok a => exact .inl ⟨a, f₁, ks₁, ks₂, ⟨es₁, he⟩, ⟨es₂, hg⟩, rfl⟩
  | error x =>
      obtain ⟨heq, rfl, rfl⟩ := Engine.Demand.Yields.of_pure hg
      obtain ⟨rfl, rfl⟩ := Prod.mk.inj heq
      exact .inr ⟨x, ⟨es₁, by rw [List.append_nil]; exact he⟩, rfl⟩

theorem Yields.of_bind_ok {e : Staged ε σ α} {g : α → Staged ε σ β} {b : β}
    (h : Yields s f (e >>= g) (.ok b) f' ks) :
    ∃ a f₁ ks₁ ks₂, Yields s f e (.ok a) f₁ ks₁ ∧ Yields s f₁ (g a) (.ok b) f' ks₂ ∧
      ks = ks₁ ++ ks₂ := by
  rcases h.of_bind with h | ⟨x, _, hx⟩
  · exact h
  · cases hx

theorem Yields.of_request_bind {d : Demand α} {g : α → Staged ε σ β} {r : Except ε β}
    (h : Yields s f (ExceptT.lift (StateT.lift d) >>= g) r f' ks) :
    ∃ a es, ∃ ks₁ ks₂ : List AnalysisKey, Engine.Demand.Yields s d a ks₁ es ∧
      Yields s f (g a) r f' ks₂ ∧
      ks = ks₁ ++ ks₂ := by
  rcases h.of_bind with ⟨a, f₁, ks₁, ks₂, hd, hg, hks⟩ | ⟨x, hd, _⟩
  · obtain ⟨b, es, hd, hb, rfl⟩ := Yields.of_request hd
    obtain rfl := Except.ok.inj hb
    exact ⟨a, es, ks₁, ks₂, hd, hg, hks⟩
  · obtain ⟨_, _, _, hx, _⟩ := Yields.of_request hd
    cases hx

theorem Yields.of_get_bind {g : σ → Staged ε σ β} {r : Except ε β}
    (h : Yields s f (ExceptT.lift get >>= g) r f' ks) : Yields s f (g f) r f' ks := by
  rcases h.of_bind with ⟨a, f₁, ks₁, ks₂, hget, hg, rfl⟩ | ⟨x, hget, _⟩
  · obtain ⟨ha, rfl, rfl⟩ := Yields.of_get hget
    obtain rfl := Except.ok.inj ha
    exact hg
  · cases (Yields.of_get hget).1

theorem Yields.of_modify_bind {m : σ → σ} {g : PUnit → Staged ε σ β} {r : Except ε β}
    (h : Yields s f (ExceptT.lift (modify m) >>= g) r f' ks) :
    Yields s (m f) (g ()) r f' ks := by
  rcases h.of_bind with ⟨a, f₁, ks₁, ks₂, hm, hg, rfl⟩ | ⟨x, hm, _⟩
  · obtain ⟨_, rfl, rfl⟩ := Yields.of_modify hm
    exact hg
  · cases (Yields.of_modify hm).1

theorem Yields.of_throw_bind {x : ε} {g : α → Staged ε σ β} {r : Except ε β}
    (h : Yields s f (throw x >>= g) r f' ks) : r = .error x ∧ f' = f := by
  rcases h.of_bind with ⟨a, f₁, ks₁, ks₂, hthrow, _, _⟩ | ⟨y, hthrow, hr⟩
  · cases (Yields.of_throw hthrow).1
  · obtain ⟨hy, hf, _⟩ := Yields.of_throw hthrow
    exact ⟨hr.trans (congrArg _ (Except.error.inj hy)), hf⟩

theorem Yields.of_tryCatch {e : Staged ε σ α} {g : ε → Staged ε σ α} {r : Except ε α}
    (h : Yields s f (tryCatch e g) r f' ks) :
    (∃ a, Yields s f e (.ok a) f' ks ∧ r = .ok a) ∨
    ∃ x f₁ ks₁ ks₂, Yields s f e (.error x) f₁ ks₁ ∧ Yields s f₁ (g x) r f' ks₂ ∧
      ks = ks₁ ++ ks₂ := by
  obtain ⟨es, h⟩ := h
  obtain ⟨⟨a, f₁⟩, ks₁, es₁, ks₂, es₂, he, hg, rfl, rfl⟩ := Engine.Demand.Yields.of_bind h
  cases a with
  | ok a =>
      obtain ⟨heq, rfl, rfl⟩ := Engine.Demand.Yields.of_pure hg
      obtain ⟨rfl, rfl⟩ := Prod.mk.inj heq
      exact .inl ⟨a, ⟨es₁, by rw [List.append_nil]; exact he⟩, rfl⟩
  | error x => exact .inr ⟨x, f₁, ks₁, ks₂, ⟨es₁, he⟩, ⟨es₂, hg⟩, rfl⟩

end Staged
end BuildAnalysis
