import BuildAnalysis.Proofs.Analysis.Lawful
import BuildAnalysis.Proofs.Engine.History

/-!
# What cached values of analysis come from

The cached packages say which targets there are. In a consistent store the value of a configuration
is the configuration of its key, and the value of a target or of an aspect is what its evaluation
yields on that store. A failed evaluation has reported its failure, and all its events are among the
effects of the key.
-/
namespace BuildAnalysis

open Engine (Store)

/-- A store of analysis whose computed values are what their keys' tasks come to. -/
abbrev Consistent (services : Option Services) (st : Store analysisSpace) : Prop :=
  st.Consistent (AnalysisKey.computation services)

theorem consistent_after {services : Option Services} {start : Engine.Session analysisSpace}
    (empty : start.store = {}) {history : List (Engine.Call analysisSpace)}
    (proper : ∀ call ∈ history, call.Proper (AnalysisKey.computation services))
    {st : Store analysisSpace} (hs : st = (start.after history).store) :
    Consistent services st := by
  rw [hs]
  exact Engine.Session.after_consistent empty proper

def success? {ε α : Type} : Option (Except ε α) → Option α
  | some (.ok a) => some a
  | _ => none

theorem success?_eq_some {ε α : Type} {r : Option (Except ε α)} {a : α}
    (h : success? r = some a) : r = some (.ok a) := by
  unfold success? at h
  split at h
  next => rw [Option.some.inj h]
  next => cases h

section Lookup

variable {st : Store analysisSpace}

/-- The loaded packages have a target at a label. -/
def TargetAt (st : Store analysisSpace) (label : Label) (t : Target) : Prop :=
  ∃ p, st.value? (.package label.package) = some (.ok p) ∧ p.target label.name = .ok t

theorem TargetAt.eq {label : Label} {t t' : Target} (h : TargetAt st label t)
    (h' : TargetAt st label t') : t = t' := by
  obtain ⟨p, hp, ht⟩ := h
  obtain ⟨p', hp', ht'⟩ := h'
  obtain rfl : p = p' := Except.ok.inj (Option.some.inj (hp.symm.trans hp'))
  exact Except.ok.inj (ht.symm.trans ht')

/-- What looking up a label in its package comes to. -/
def LookedUp (st : Store analysisSpace) (label : Label) (r : Except Failure Target) : Prop :=
  ∃ loaded, st.value? (.package label.package) = some loaded ∧
    Package.lookup loaded label.name = r

theorem lookedUp_ok {label : Label} {t : Target} :
    LookedUp st label (.ok t) ↔ TargetAt st label t := by
  constructor
  · rintro ⟨loaded, hloaded, h⟩
    cases loaded with
    | error e => cases h
    | ok p =>
        change (p.target label.name).mapError PackageError.toFailure = .ok t at h
        cases ht : p.target label.name with
        | error e =>
            rw [ht] at h
            cases h
        | ok u =>
            rw [ht] at h
            obtain rfl := Except.ok.inj h
            exact ⟨p, hloaded, ht⟩
  · rintro ⟨p, hp, ht⟩
    exact ⟨.ok p, hp, by rw [Package.lookup, ht]; rfl⟩

theorem LookedUp.unique {label : Label} {r r' : Except Failure Target}
    (h : LookedUp st label r) (h' : LookedUp st label r') : r = r' := by
  obtain ⟨loaded, hloaded, rfl⟩ := h
  obtain ⟨loaded', hloaded', rfl⟩ := h'
  obtain rfl := Option.some.inj (hloaded.symm.trans hloaded')
  rfl

theorem lookedUp_among {label : Label} {ps : List PackagePath}
    {loaded : List (PackagePath × Except Failure Package)}
    (hloaded : st.Reads (S := analysisSpace) AnalysisKey.package (fun p r => (p, r)) ps loaded)
    (hmem : label.package ∈ ps) :
    LookedUp st label (Package.lookup (Package.among loaded label) label.name) := by
  obtain ⟨r, hr, hfind⟩ := hloaded.find? hmem
  exact ⟨r, hr, by rw [Package.among, hfind]; rfl⟩

end Lookup

namespace AnalysisKey

variable {services : Option Services} {st : Store analysisSpace} {k : AnalysisKey}
  {ks : List AnalysisKey} {es : List AnalysisEffect}

/-- The value of a key, the keys that its task requests on a store and the effects that it performs
there. -/
def Evaluates (services : Option Services) (st : Store analysisSpace) (k : AnalysisKey)
    (v : k.Value) (ks : List AnalysisKey) (es : List AnalysisEffect) : Prop :=
  ∃ q, (computation services k).replay st none = some q ∧ q.result = .ok v ∧
    q.requested = ks ∧ q.effects = es

theorem Evaluates.yields {v : k.Value} (h : Evaluates services st k v ks es) :
    Engine.Demand.Yields st (computation services k) v ks es := by
  obtain ⟨q, hq, hv, hks, hes⟩ := h
  exact ⟨none, q, hq, hv, hks, hes⟩

/-- Every cached value that is not injected is evaluated, and what was requested was recorded. -/
theorem evaluates_of_value? (hst : Consistent services st)
    (hk : analysisSpace.isInjected k = false) {v : k.Value} (hv : st.value? k = some v) :
    ∃ deps ks es, ⟨k, v, deps⟩ ∈ st.entries ∧ (∀ l, l ∈ deps ↔ l ∈ ks) ∧
      Evaluates services st k v ks es := by
  obtain ⟨deps, hmem⟩ := Store.exists_mem_of_value? hv
  obtain ⟨q, hq, hqv, hdeps⟩ := hst.computed _ hmem hk
  refine ⟨deps, q.requested, q.effects, hmem, fun l => ?_, q, hq, hqv, rfl, rfl⟩
  change deps = Listing.distinct q.requested at hdeps
  rw [hdeps]
  exact Listing.mem_distinct

theorem value?_configuration (hst : Consistent services st) {c : ConfigurationKey}
    {v : Configuration} (hv : st.value? (.configuration c) = some v) : v = ⟨c⟩ := by
  obtain ⟨_, _, _, _, _, h⟩ := evaluates_of_value? hst rfl hv
  exact (Engine.Demand.Yields.of_pure h.yields).1

theorem performAll_replay (es : List AnalysisEffect) (o : Option Unit) :
    (performAll es).replay st o = some ⟨(), o, [], es⟩ := by
  induction es with
  | nil => rfl
  | cons e es ih =>
      simp only [performAll, Engine.Task.replay, ih, Option.map_some]
      rfl

theorem yields_deliver {f : Findings} {u : Unit}
    (h : Engine.Demand.Yields st (Engine.Demand.lift (deliver f)) u ks es) :
    ks = [] ∧ es = f.events.map AnalysisEffect.deliver := by
  obtain ⟨o, q, hq, _, rfl, rfl⟩ := Engine.Demand.Yields.of_lift h
  obtain rfl := Option.some.inj (hq.symm.trans (performAll_replay _ o))
  exact ⟨rfl, rfl⟩

theorem yields_deliver_bind {α : Type} {f : Findings} {d : Demand α} {a : α}
    (h : Engine.Demand.Yields st (do Engine.Demand.lift (deliver f); d) a ks es) :
    (∃ es', Engine.Demand.Yields st d a ks es') ∧
      ∀ ev ∈ f.events, AnalysisEffect.deliver ev ∈ es := by
  obtain ⟨u, ks₁, es₁, ks₂, es₂, hdeliver, hd, rfl, rfl⟩ := Engine.Demand.Yields.of_bind h
  obtain ⟨rfl, rfl⟩ := yields_deliver hdeliver
  exact ⟨⟨es₂, hd⟩, fun ev hev => List.mem_append_left _ (List.mem_map_of_mem hev)⟩

theorem yields_act_bind {α : Type} {t : Engine.Task analysisSpace Unit} {x a : α}
    (ht : ∀ o q, t.replay st o = some q → q.requested = [])
    (h : Engine.Demand.Yields st (do Engine.Demand.lift t; pure x) a ks es) : a = x ∧ ks = [] := by
  obtain ⟨u, ks₁, es₁, ks₂, es₂, hact, hx, rfl, rfl⟩ := Engine.Demand.Yields.of_bind h
  obtain ⟨o, q, hq, _, rfl, rfl⟩ := Engine.Demand.Yields.of_lift hact
  obtain ⟨rfl, rfl, rfl⟩ := Engine.Demand.Yields.of_pure hx
  exact ⟨rfl, by rw [ht o q hq]; rfl⟩

theorem yields_inSection {α : Type} {unblock : Bool} {d : Demand α} {a : α}
    (h : Engine.Demand.Yields st (ExceptT.mk (inSection unblock d)) a ks es) :
    ∃ es', Engine.Demand.Yields st d a ks es' := by
  obtain ⟨o, q, hq, ha, rfl, _⟩ := h
  change (Engine.Task.perform (S := analysisSpace) .work (.observe
    (if unblock then some () else none) fun previous => Engine.Task.bind d.run fun r =>
      .observe previous fun _ => .perform .rest (.done r))).replay st o = some q at hq
  simp only [Engine.Task.replay, Engine.Task.replay_bind] at hq
  obtain ⟨p, hp, rfl⟩ := Option.map_eq_some_iff.mp hq
  obtain ⟨p', hp', hp⟩ := Option.bind_eq_some_iff.mp hp
  obtain ⟨p'', hp'', rfl⟩ := Option.map_eq_some_iff.mp hp
  obtain rfl := Option.some.inj hp''
  exact ⟨p'.effects, _, p', hp', ha, by simp, rfl⟩

/-- The value of a target: its evaluation ended, and what it found was delivered. -/
theorem evaluates_target {k : TargetKey} {r : Except Failure TargetValue}
    (h : Evaluates services st (.target k) r ks es) :
    (services = none ∧ r = .error Services.missing) ∨
    ∃ s result found, services = some s ∧
      Staged.Yields st (initial s.settings) (k.evaluate s) result found ks ∧
      ((∃ v, result = .ok v ∧ r = .ok v ∧
          ∀ ev ∈ found.events, AnalysisEffect.deliver ev ∈ es) ∨
        ∃ a, result = .error a ∧ r = .error (.ofTargetFailure (k.reportFailure found a).2) ∧
          ∀ ev ∈ (k.reportFailure found a).1.events, AnalysisEffect.deliver ev ∈ es) := by
  have hy : Engine.Demand.Yields st (computeTarget services k) r ks es := h.yields
  unfold computeTarget at hy
  split at hy
  next =>
    exact .inl ⟨rfl, (Engine.Demand.Yields.of_pure hy).1⟩
  next s =>
    obtain ⟨⟨result, found⟩, ks₁, es₁, ks₂, es₂, hsection, hrest, hks, rfl⟩ := hy.of_bind
    obtain ⟨es', heval⟩ := yields_inSection hsection
    refine .inr ⟨s, result, found, rfl, ?_⟩
    cases result with
    | ok v =>
        obtain ⟨⟨es₃, hfinish⟩, hall⟩ := yields_deliver_bind hrest
        obtain ⟨rfl, rfl⟩ := yields_act_bind (fun o q hq => by cases hq; rfl) hfinish
        obtain rfl := hks.trans (List.append_nil ks₁)
        exact ⟨⟨es', heval⟩,
          .inl ⟨v, rfl, rfl, fun ev hev => List.mem_append_right _ (hall ev hev)⟩⟩
    | error a =>
        obtain ⟨⟨es₃, hlog⟩, hall⟩ := yields_deliver_bind hrest
        obtain ⟨rfl, rfl⟩ := yields_act_bind (fun o q hq => by cases hq; rfl) hlog
        obtain rfl := hks.trans (List.append_nil ks₁)
        exact ⟨⟨es', heval⟩,
          .inr ⟨a, rfl, rfl, fun ev hev => List.mem_append_right _ (hall ev hev)⟩⟩

/-- The value of an aspect: its evaluation ended, and what it found was delivered. -/
theorem evaluates_aspect {k : AspectKey} {r : Except Failure AspectValue}
    (h : Evaluates services st (.aspect k) r ks es) :
    (services = none ∧ r = .error Services.missing) ∨
    ∃ s result found, services = some s ∧
      Staged.Yields st {} (k.evaluate s) result found ks ∧
      ((∃ v, result = .ok v ∧ r = .ok v ∧
          ∀ ev ∈ found.events, AnalysisEffect.deliver ev ∈ es) ∨
        ∃ a, result = .error a ∧ r = .error (.ofTargetFailure (k.reportFailure found a).2) ∧
          ∀ ev ∈ (k.reportFailure found a).1.events, AnalysisEffect.deliver ev ∈ es) := by
  have hy : Engine.Demand.Yields st (computeAspect services k) r ks es := h.yields
  unfold computeAspect at hy
  split at hy
  next => exact .inl ⟨rfl, (Engine.Demand.Yields.of_pure hy).1⟩
  next s =>
    obtain ⟨⟨result, found⟩, ks₁, es₁, ks₂, es₂, heval, hrest, hks, rfl⟩ := hy.of_bind
    refine .inr ⟨s, result, found, rfl, ?_⟩
    cases result with
    | ok v =>
        obtain ⟨⟨es₃, hx⟩, hall⟩ := yields_deliver_bind hrest
        obtain ⟨rfl, rfl, rfl⟩ := Engine.Demand.Yields.of_pure hx
        obtain rfl := hks.trans (List.append_nil ks₁)
        exact ⟨⟨es₁, heval⟩,
          .inl ⟨v, rfl, rfl, fun ev hev => List.mem_append_right _ (hall ev hev)⟩⟩
    | error a =>
        obtain ⟨⟨es₃, hx⟩, hall⟩ := yields_deliver_bind hrest
        obtain ⟨rfl, rfl, rfl⟩ := Engine.Demand.Yields.of_pure hx
        obtain rfl := hks.trans (List.append_nil ks₁)
        exact ⟨⟨es₁, heval⟩,
          .inr ⟨a, rfl, rfl, fun ev hev => List.mem_append_right _ (hall ev hev)⟩⟩

end AnalysisKey
end BuildAnalysis
