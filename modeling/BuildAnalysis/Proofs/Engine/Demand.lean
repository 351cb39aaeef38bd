import Mathlib.Data.List.Forall2
import BuildAnalysis.Proofs.Engine.Run

/-!
# Demands on a store

Demands are put together from requests and from tasks that only act. Both are lawful, and so is
whatever is bound to them. A demand that yields a value on a store does so step by step: each
request was answered by the store, and each part of a bound demand yielded a value itself. Unless it
asks for its observer, there is only one value that it can yield.
-/
namespace BuildAnalysis.Engine

variable {S : KeySpace} {α β : Type}

namespace Task

theorem bind_done (t : Task S α) : t.bind done = t := by
  induction t with
  | done a => rfl
  | request ks next ih => simp only [bind, ih]
  | isCancelled next ih => simp only [bind, ih]
  | cancel next ih => simp only [bind, ih]
  | observe o next ih => simp only [bind, ih]
  | perform e next ih => simp only [bind, ih]
  | log entry next ih => simp only [bind, ih]
  | nested k next ih => simp only [bind, ih]
  | commit cs next ih => simp only [bind, ih]

theorem bind_bind {γ : Type} (t : Task S α) (f : α → Task S β) (g : β → Task S γ) :
    (t.bind f).bind g = t.bind fun a => (f a).bind g := by
  induction t with
  | done a => rfl
  | request ks next ih => simp only [bind, ih]
  | isCancelled next ih => simp only [bind, ih]
  | cancel next ih => simp only [bind, ih]
  | observe o next ih => simp only [bind, ih]
  | perform e next ih => simp only [bind, ih]
  | log entry next ih => simp only [bind, ih]
  | nested k next ih => simp only [bind, ih]
  | commit cs next ih => simp only [bind, ih]

/-- Tasks, and so demands and evaluations, obey the laws of monads. -/
instance : LawfulMonad (Task S) :=
  LawfulMonad.mk' (Task S) bind_done (fun _ _ => rfl) bind_bind

theorem Stops.lawful {e : Suspension} {t : Task S (Except Suspension α)} (h : Stops e t) :
    t.Lawful := by
  induction h with
  | done => exact .done _
  | observe _ ih => exact .observe ih
  | perform _ ih => exact .perform ih
  | log _ ih => exact .log ih

theorem Stops.bind {e : Suspension} {t : Task S (Except Suspension α)}
    {f : Except Suspension α → Task S (Except Suspension β)} (h : Stops e t)
    (hf : Stops e (f (.error e))) : Stops e (t.bind f) := by
  induction h with
  | done => exact hf
  | observe _ ih => exact .observe ih
  | perform _ ih => exact .perform ih
  | log _ ih => exact .log ih

theorem Lawful.bind {t : Task S (Except Suspension α)}
    {f : Except Suspension α → Task S (Except Suspension β)} (h : t.Lawful)
    (ok : ∀ a, (f (.ok a)).Lawful) (stops : ∀ e, Stops e (f (.error e))) :
    (t.bind f).Lawful := by
  induction h with
  | done r =>
      cases r with
      | ok a => exact ok a
      | error e => exact (stops e).lawful
  | request _ hstops ih => exact .request ih fun e => (hstops e).bind (stops e)
  | observe _ ih => exact .observe ih
  | perform _ ih => exact .perform ih
  | log _ ih => exact .log ih

inductive Quiet : Task S α → Prop
  | done (a) : Quiet (done a)
  | observe {o next} (h : ∀ o, Quiet (next o)) : Quiet (observe o next)
  | perform {effect next} (h : Quiet next) : Quiet (perform effect next)
  | log {entry next} (h : Quiet next) : Quiet (log entry next)

end Task

namespace Demand

/-- The demand requests values, asks for nothing else and stops at the first request without
values. -/
def Lawful (d : Demand S α) : Prop := Task.Lawful d.run

/-- A property of demands that whatever is put together from requests and log entries has. -/
class Composed (D : {α : Type} → Demand S α → Prop) : Prop where
  pure {α : Type} (a : α) : D (pure a : Demand S α)
  bind {α β : Type} {d : Demand S α} {f : α → Demand S β} (h : D d) (hf : ∀ a, D (f a)) :
    D (d >>= f)
  value (k : S.Key) : D (value k)
  values {α β : Type} (key : α → S.Key) (read : (a : α) → S.Value (key a) → β) (as : List α) :
    D (values key read as)
  values₂ {α β α' β' : Type} (key : α → S.Key) (read : (a : α) → S.Value (key a) → β)
    (key' : α' → S.Key) (read' : (a : α') → S.Value (key' a) → β') (as : List α)
    (as' : List α') : D (values₂ key read key' read' as as')
  log (entry : LogEntry) : D (lift (.log entry (.done ())))

theorem Composed.forM {D : {α : Type} → Demand S α → Prop} [Composed D] {as : List α}
    {f : α → Demand S PUnit} (h : ∀ a ∈ as, D (f a)) : D (as.forM f) := by
  induction as with
  | nil => exact Composed.pure _
  | cons a as ih =>
      exact Composed.bind (h a List.mem_cons_self) fun _ =>
        ih fun b hb => h b (List.mem_cons_of_mem _ hb)

theorem lawful_pure (a : α) : Lawful (pure a : Demand S α) := .done _

theorem Lawful.bind {d : Demand S α} {f : α → Demand S β} (h : d.Lawful)
    (hf : ∀ a, (f a).Lawful) : (d >>= f).Lawful :=
  Task.Lawful.bind h hf fun _ => .done

theorem lawful_lift {t : Task S α} (h : t.Quiet) : Lawful (lift t) := by
  change Task.Lawful (t.bind fun a => .done (.ok a))
  induction h with
  | done a => exact .done _
  | observe _ ih => exact .observe ih
  | perform _ ih => exact .perform ih
  | log _ ih => exact .log ih

instance : Composed (S := S) Lawful where
  pure := lawful_pure
  bind := .bind
  value _ := .request (fun _ => .done _) fun _ => .done
  values _ _ _ := .request (fun _ => .done _) fun _ => .done
  values₂ _ _ _ _ _ _ := .request (fun _ => .done _) fun _ => .done
  log _ := lawful_lift (.log (.done _))

/-- On a store, under some observer, the demand comes to a value; the keys that it requests and the
effects that it performs. -/
def Yields (s : Store S) (d : Demand S α) (a : α) (ks : List S.Key) (es : List S.Effect) : Prop :=
  ∃ o q, Task.replay s d.run o = some q ∧ q.result = .ok a ∧ q.requested = ks ∧ q.effects = es

variable {s : Store S} {d : Demand S α} {a : α} {ks : List S.Key} {es : List S.Effect}

/-- A lawful demand that is run yields its result on the store that it is run on. -/
theorem yields_of_run (hd : Lawful d) {nest : Nest S} {r : Running S}
    (h : (Task.run nest d.run r).1 = .ok a) :
    ∃ ks es, d.Yields r.session.store a ks es := by
  have hlawful : d.run.uninterrupted.Lawful := by
    rw [Task.Lawful.uninterrupted_eq hd]
    exact hd
  obtain ⟨_, _, completes⟩ := Task.run_lawful nest hlawful r
  obtain ⟨q, hq, hqa, _⟩ := completes a h
  exact ⟨_, _, _, q, hq, hqa, rfl, rfl⟩

theorem Yields.of_pure {b : α} (h : Yields s (pure b) a ks es) : a = b ∧ ks = [] ∧ es = [] := by
  obtain ⟨o, q, hq, ha, rfl, rfl⟩ := h
  obtain rfl := Option.some.inj hq
  exact ⟨(Except.ok.inj ha).symm, rfl, rfl⟩

theorem Yields.of_bind {f : α → Demand S β} {b : β} (h : Yields s (d >>= f) b ks es) :
    ∃ a ks₁ es₁ ks₂ es₂, d.Yields s a ks₁ es₁ ∧ (f a).Yields s b ks₂ es₂ ∧
      ks = ks₁ ++ ks₂ ∧ es = es₁ ++ es₂ := by
  obtain ⟨o, q, hq, hb, rfl, rfl⟩ := h
  change (Task.bind d.run (ExceptT.bindCont f)).replay s o = some q at hq
  rw [Task.replay_bind] at hq
  obtain ⟨p, hp, hq⟩ := Option.bind_eq_some_iff.mp hq
  obtain ⟨r, hr, rfl⟩ := Option.map_eq_some_iff.mp hq
  cases hresult : p.result with
  | ok a =>
      rw [hresult] at hr
      exact ⟨a, _, _, _, _, ⟨o, p, hp, hresult, rfl, rfl⟩, ⟨_, r, hr, hb, rfl, rfl⟩, rfl, rfl⟩
  | error e =>
      rw [hresult] at hr
      obtain rfl := Option.some.inj hr
      cases hb

theorem Yields.of_map_request {keys : List S.Key} {f : Values S keys → α}
    (h : Yields s (Task.request keys fun r => .done (r.map f)) a ks es) :
    ks = keys ∧ ∃ vs, s.values? keys = some vs ∧ a = f vs := by
  obtain ⟨o, q, hq, ha, rfl, rfl⟩ := h
  obtain ⟨vs, p, hvs, hp, rfl⟩ := Task.replay_request hq
  obtain rfl := Option.some.inj hp
  exact ⟨List.append_nil _, vs, hvs, (Except.ok.inj ha).symm⟩

theorem Yields.of_value {k : S.Key} {v : S.Value k} (h : Yields s (value k) v ks es) :
    ks = [k] ∧ s.value? k = some v := by
  obtain ⟨hks, vs, hvs, rfl⟩ := h.of_map_request
  refine ⟨hks, ?_⟩
  simp only [Store.values?] at hvs
  split at hvs
  next w vs' hw hvs' =>
    obtain rfl := Option.some.inj hvs
    exact hw
  next => cases hvs

/-- On a store the demand comes to the same value under all observers. -/
def Settled (d : Demand S α) : Prop :=
  ∀ (s : Store S) a b ks ls es fs, d.Yields s a ks es → d.Yields s b ls fs → a = b

theorem settled_of_map_request {keys : List S.Key} {f : Values S keys → α} :
    Settled (Task.request keys fun r => .done (r.map f) : Demand S α) := by
  intro s a b ks ls es fs ha hb
  obtain ⟨_, vs, hvs, rfl⟩ := ha.of_map_request
  obtain ⟨_, ws, hws, rfl⟩ := hb.of_map_request
  obtain rfl := Option.some.inj (hvs.symm.trans hws)
  rfl

instance : Composed (S := S) Settled where
  pure _ _ _ _ _ _ _ _ ha hb := ha.of_pure.1.trans hb.of_pure.1.symm
  bind h hf := by
    intro s a b ks ls es fs ha hb
    obtain ⟨c, _, _, _, _, hc, ha, _⟩ := ha.of_bind
    obtain ⟨c', _, _, _, _, hc', hb, _⟩ := hb.of_bind
    obtain rfl := h s _ _ _ _ _ _ hc hc'
    exact hf c s _ _ _ _ _ _ ha hb
  value _ := settled_of_map_request
  values _ _ _ := settled_of_map_request
  values₂ _ _ _ _ _ _ := settled_of_map_request
  log _ _ _ _ _ _ _ _ _ _ := rfl

end Demand

theorem exists_of_mem_left {R : α → β → Prop} {as : List α} {bs : List β}
    (h : List.Forall₂ R as bs) {a : α} (ha : a ∈ as) : ∃ b ∈ bs, R a b := by
  induction h with
  | nil => cases ha
  | cons hr _ ih =>
      rcases List.mem_cons.mp ha with rfl | ha
      · exact ⟨_, List.mem_cons_self, hr⟩
      · obtain ⟨b, hb, hr⟩ := ih ha
        exact ⟨b, List.mem_cons_of_mem _ hb, hr⟩

theorem exists_of_mem_right {R : α → β → Prop} {as : List α} {bs : List β}
    (h : List.Forall₂ R as bs) {b : β} (hb : b ∈ bs) : ∃ a ∈ as, R a b :=
  exists_of_mem_left h.flip hb

namespace Store

/-- The second list reads off, one by one, the values of the first list's keys. -/
def Reads (s : Store S) (key : α → S.Key) (read : (a : α) → S.Value (key a) → β) :
    List α → List β → Prop :=
  List.Forall₂ fun a b => ∃ v, s.value? (key a) = some v ∧ b = read a v

variable {s : Store S} {key : α → S.Key} {read : (a : α) → S.Value (key a) → β} {as : List α}

theorem reads_toList {vs : Values S (as.map key)} (h : s.values? (as.map key) = some vs) :
    s.Reads key read as (vs.toList key read as) := by
  induction as with
  | nil => exact .nil
  | cons a as ih =>
      change s.values? (key a :: as.map key) = some vs at h
      simp only [values?] at h
      split at h
      next v vs' hv hvs =>
        obtain rfl := Option.some.inj h
        exact .cons ⟨v, hv, rfl⟩ (ih hvs)
      next => cases h

theorem values?_split {ks ls : List S.Key} {vs : Values S (ks ++ ls)}
    (h : s.values? (ks ++ ls) = some vs) :
    s.values? ks = some (Values.split ks vs).1 ∧ s.values? ls = some (Values.split ks vs).2 := by
  induction ks with
  | nil => exact ⟨rfl, h⟩
  | cons k ks ih =>
      change s.values? (k :: (ks ++ ls)) = some vs at h
      simp only [values?] at h
      split at h
      next v vs' hv hvs =>
        obtain rfl := Option.some.inj h
        obtain ⟨h₁, h₂⟩ := ih hvs
        exact ⟨by simp [values?, hv, h₁, Values.split], h₂⟩
      next => cases h

theorem Reads.find? [DecidableEq α] {read : (a : α) → S.Value (key a) → β}
    {bs : List (α × β)} (h : s.Reads key (fun a v => (a, read a v)) as bs) {a : α} (ha : a ∈ as) :
    ∃ v, s.value? (key a) = some v ∧ Listing.find? a bs = some (read a v) := by
  induction h with
  | nil => cases ha
  | @cons b p as bs hv _ ih =>
      obtain ⟨v, hv, rfl⟩ := hv
      by_cases hb : b = a
      · subst hb
        exact ⟨v, hv, if_pos rfl⟩
      · obtain ⟨w, hw, hfind⟩ := ih ((List.mem_cons.mp ha).resolve_left (Ne.symm hb))
        exact ⟨w, hw, by rw [Listing.find?, if_neg hb, hfind]⟩

end Store

namespace Demand

variable {s : Store S} {ks : List S.Key} {es : List S.Effect}

theorem Yields.of_values {key : α → S.Key} {read : (a : α) → S.Value (key a) → β} {as : List α}
    {bs : List β} (h : Yields s (values key read as) bs ks es) :
    ks = as.map key ∧ s.Reads key read as bs := by
  obtain ⟨hks, vs, hvs, rfl⟩ := h.of_map_request
  exact ⟨hks, Store.reads_toList hvs⟩

theorem Yields.of_values₂ {α' β' : Type} {key : α → S.Key}
    {read : (a : α) → S.Value (key a) → β} {key' : α' → S.Key}
    {read' : (a : α') → S.Value (key' a) → β'} {as : List α} {as' : List α'}
    {bs : List β × List β'} (h : Yields s (values₂ key read key' read' as as') bs ks es) :
    ks = as.map key ++ as'.map key' ∧ s.Reads key read as bs.1 ∧ s.Reads key' read' as' bs.2 := by
  obtain ⟨hks, vs, hvs, rfl⟩ := h.of_map_request
  obtain ⟨h₁, h₂⟩ := Store.values?_split hvs
  exact ⟨hks, Store.reads_toList h₁, Store.reads_toList h₂⟩

theorem Yields.of_lift {t : Task S α} {a : α} (h : Yields s (lift t) a ks es) :
    ∃ o q, t.replay s o = some q ∧ q.result = a ∧ q.requested = ks ∧ q.effects = es := by
  obtain ⟨o, q, hq, ha, rfl, rfl⟩ := h
  change (t.bind fun a => .done (.ok a)).replay s o = some q at hq
  rw [Task.replay_bind] at hq
  obtain ⟨p, hp, hq⟩ := Option.bind_eq_some_iff.mp hq
  obtain ⟨r, hr, rfl⟩ := Option.map_eq_some_iff.mp hq
  obtain rfl := Option.some.inj hr
  exact ⟨o, p, hp, Except.ok.inj ha, by simp, by simp⟩

end Demand
end BuildAnalysis.Engine
