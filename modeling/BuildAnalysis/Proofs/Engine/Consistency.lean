import BuildAnalysis.Proofs.Engine.Store

/-!
# Consistency of the store

In a consistent store every computed value is what its key's task comes to when the store answers
its requests, the keys requested are those that were recorded, and they all have values. Inserting
the result of such a task, setting an injected value and invalidating a key keep a store consistent.
-/
namespace BuildAnalysis.Engine

variable {S : KeySpace} {compute : Computation S}

/-- A change that sets values of injected keys only. -/
def Change.Proper : Change S → Prop
  | .inject k _ => S.isInjected k = true
  | .invalidate _ => True

namespace Store

variable {s t : Store S} {k : S.Key}

/-- The entry holds what its key's task comes to on a store, and the keys requested. -/
def Explains (compute : Computation S) (s : Store S) (e : Entry S) : Prop :=
  ∃ q, (compute e.key).replay s none = some q ∧ q.result = .ok e.value ∧
    e.deps = Listing.distinct q.requested

structure Consistent (compute : Computation S) (s : Store S) : Prop where
  unique : s.Unique
  given : ∀ e ∈ s.entries, S.isInjected e.key = true → e.deps = []
  computed : ∀ e ∈ s.entries, S.isInjected e.key = false → s.Explains compute e
  linked : s.LinkedUpTo []
  /-- Nothing is computed from later entries or from itself. -/
  ordered : s.entries.Pairwise fun e f => f.key ∉ e.deps
  irreflexive : ∀ e ∈ s.entries, e.key ∉ e.deps
  dependents : ∀ k d, k ∈ s.dependentsOf d → S.isInjected k = false

theorem consistent_empty (compute : Computation S) : Consistent compute ({} : Store S) where
  unique := List.nodup_nil
  given := by simp
  computed := by simp
  linked := by simp [LinkedUpTo]
  ordered := .nil
  irreflexive := by simp
  dependents := by simp [dependentsOf, Listing.find?]

theorem Explains.congr {e : Entry S} (h : s.Explains compute e)
    (hsame : ∀ d ∈ e.deps, t.value? d = s.value? d) : t.Explains compute e := by
  obtain ⟨q, hq, hv, hd⟩ := h
  refine ⟨q, Task.replay_congr hq fun k hk => hsame k ?_, hv, hd⟩
  rw [hd]
  exact Listing.mem_distinct.mpr hk

namespace Consistent

variable (h : s.Consistent compute)
include h

theorem contains_dep {e : Entry S} (he : e ∈ s.entries) {d : S.Key} (hd : d ∈ e.deps) :
    s.contains d = true := (h.linked e he List.not_mem_nil d hd).1

theorem injected_free (hk : S.isInjected k = true) (d : S.Key) : k ∉ s.dependentsOf d := by
  intro hd
  rw [h.dependents k d hd] at hk
  cases hk

/-- Dropping entries keeps a store consistent if it stays linked. -/
theorem restrict (hentries : t.entries.Sublist s.entries) (hlinked : t.LinkedUpTo [])
    (hdependents : ∀ x l, x ∈ t.dependentsOf l → x ∈ s.dependentsOf l) :
    t.Consistent compute where
  unique := h.unique.sublist (hentries.map Entry.key)
  given e he := h.given e (hentries.subset he)
  computed e he hk := by
    have hwithin : t.Within s := h.unique.within fun e he => hentries.subset he
    refine (h.computed e (hentries.subset he) hk).congr fun d hd => ?_
    exact (hwithin.value?_eq (hlinked e he List.not_mem_nil d hd).1).symm
  linked := hlinked
  ordered := h.ordered.sublist hentries
  irreflexive e he := h.irreflexive e (hentries.subset he)
  dependents k d hd := h.dependents k d (hdependents k d hd)

theorem dropComputedFrom (k : S.Key) : (s.dropComputedFrom k).1.Consistent compute :=
  h.restrict (s.swept_dropComputedFrom k).entries
    ((s.swept_dropComputedFrom k).linked (h.linked.dropDependentsOf k))
    fun _ _ => mem_dependentsOf_dropComputedFrom

theorem not_mem_deps_dropComputedFrom {e : Entry S}
    (he : e ∈ (s.dropComputedFrom k).1.entries) : k ∉ e.deps :=
  Store.not_mem_deps_dropComputedFrom h.linked he

theorem invalidate (k : S.Key) : (s.invalidate k).1.Consistent compute := by
  have hdropped := h.dropComputedFrom k
  refine hdropped.restrict ?_ ?_ fun _ _ => mem_dependentsOf_remove
  · rw [Store.invalidate, remove_entries]
    exact List.filter_sublist
  · intro e he _ d hd
    rw [Store.invalidate, remove_entries] at he
    obtain ⟨he, hek⟩ := List.mem_filter.mp he
    have hdk : d ≠ k := fun hdk => h.not_mem_deps_dropComputedFrom he (hdk ▸ hd)
    obtain ⟨hpresent, hrecorded⟩ := hdropped.linked e he List.not_mem_nil d hd
    constructor
    · rw [contains, Store.invalidate, remove_value?, if_neg hdk]
      exact hpresent
    · exact mem_dependentsOf_remove_of_ne (by simpa using hek) hrecorded

/-- Adding an entry at the end that is computed from keys with values. -/
theorem append {e : Entry S} (hnew : s.contains e.key = false)
    (hdeps : ∀ d ∈ e.deps, s.contains d = true)
    (hgiven : S.isInjected e.key = true → e.deps = [])
    (hcomputed : S.isInjected e.key = false → s.Explains compute e) :
    Consistent compute ⟨s.entries ++ [e],
      e.deps.foldl (fun ds dep => addDependent e.key dep ds) s.dependents⟩ := by
  have hold : ∀ f ∈ s.entries, f.key ≠ e.key := by
    intro f hf hkey
    rw [← hkey, contains_of_mem hf] at hnew
    cases hnew
  have hunique : Unique ⟨s.entries ++ [e],
      e.deps.foldl (fun ds dep => addDependent e.key dep ds) s.dependents⟩ := by
    simp only [Unique, List.map_append, List.map_cons, List.map_nil]
    refine List.nodup_append.mpr ⟨h.unique, List.nodup_singleton _, ?_⟩
    intro a ha b hb
    obtain ⟨f, hf, rfl⟩ := List.mem_map.mp ha
    exact List.mem_singleton.mp hb ▸ hold f hf
  have hwithin : s.Within ⟨s.entries ++ [e],
      e.deps.foldl (fun ds dep => addDependent e.key dep ds) s.dependents⟩ :=
    hunique.within fun f hf => List.mem_append_left _ hf
  refine ⟨hunique, ?_, ?_, ?_, ?_, ?_, ?_⟩
  · exact List.forall_mem_append.mpr ⟨h.given, by simpa using hgiven⟩
  · refine List.forall_mem_append.mpr ⟨fun f hf hfk => ?_, ?_⟩
    · exact (h.computed f hf hfk).congr fun d hd => hwithin.value?_eq (h.contains_dep hf hd)
    · intro f hf hfk
      obtain rfl := List.mem_singleton.mp hf
      exact (hcomputed hfk).congr fun d hd => hwithin.value?_eq (hdeps d hd)
  · refine List.forall_mem_append.mpr ⟨fun f hf _ d hd => ?_, fun f hf _ d hd => ?_⟩
    · obtain ⟨hpresent, hrecorded⟩ := h.linked f hf List.not_mem_nil d hd
      exact ⟨hwithin.contains hpresent,
        (mem_dependentsOf_foldl_addDependent _ _ _).mpr (.inl hrecorded)⟩
    · obtain rfl := List.mem_singleton.mp hf
      exact ⟨hwithin.contains (hdeps d hd),
        (mem_dependentsOf_foldl_addDependent _ _ _).mpr (.inr ⟨rfl, hd⟩)⟩
  · refine List.pairwise_append.mpr ⟨h.ordered, List.pairwise_singleton _ _, ?_⟩
    intro f hf g hg hd
    rw [List.mem_singleton.mp hg] at hd
    rw [h.contains_dep hf hd] at hnew
    cases hnew
  · refine List.forall_mem_append.mpr ⟨h.irreflexive, fun f hf hd => ?_⟩
    obtain rfl := List.mem_singleton.mp hf
    rw [hdeps _ hd] at hnew
    cases hnew
  · intro x d hx
    rcases (mem_dependentsOf_foldl_addDependent _ _ _).mp hx with hx | ⟨rfl, hd⟩
    · exact h.dependents x d hx
    · refine Bool.eq_false_iff.mpr fun hinjected => ?_
      rw [hgiven hinjected] at hd
      cases hd

/-- Setting a key that nothing was computed from. -/
theorem set (hk : S.isInjected k = true) (hfree : ∀ e ∈ s.entries, k ∉ e.deps) (v : S.Value k) :
    (s.set k v).Consistent compute := by
  have hrest : Consistent compute { s with entries := s.entries.filter fun e => e.key ≠ k } := by
    refine h.restrict List.filter_sublist (fun e he _ d hd => ?_) fun _ _ hx => hx
    have he := (List.mem_filter.mp he).1
    have hdk : d ≠ k := fun hdk => hfree e he (hdk ▸ hd)
    obtain ⟨hpresent, hrecorded⟩ := h.linked e he List.not_mem_nil d hd
    refine ⟨?_, hrecorded⟩
    rw [contains, value?, valueIn?_filter, if_neg hdk]
    exact hpresent
  refine hrest.append (e := ⟨k, v, []⟩) ?_ (by simp) (fun _ => rfl) fun hn => ?_
  · rw [contains, value?, valueIn?_filter, if_pos rfl]
    rfl
  · rw [hk] at hn
    cases hn

theorem setInjected (hk : S.isInjected k = true) (v : S.Value k) :
    (s.setInjected k v).1.Consistent compute := by
  rcases s.setInjected_eq k v with ⟨_, heq⟩ | heq
  · rwa [heq]
  · rw [heq]
    exact (h.dropComputedFrom k).set hk (fun e he => h.not_mem_deps_dropComputedFrom he) v

theorem apply {c : Change S} (hc : c.Proper) : (s.apply c).1.Consistent compute := by
  cases c with
  | inject k v => exact h.setInjected hc v
  | invalidate k => exact h.invalidate k

theorem insertComputed (hk : S.isInjected k = false)
    {q : Replay S (Except Suspension (S.Value k))} {v : S.Value k}
    (hq : (compute k).replay s none = some q) (hv : q.result = .ok v) :
    (s.insertComputed k v (Listing.distinct q.requested)).1.Consistent compute := by
  cases hold : s.value? k with
  | some old => rwa [insertComputed_of_some hold]
  | none =>
      rw [insertComputed_of_none hold]
      refine h.append (e := ⟨k, v, Listing.distinct q.requested⟩) (by simp [contains, hold])
        ?_ ?_ ?_
      · intro d hd
        exact Task.replay_contains hq d (Listing.mem_distinct.mp hd)
      · intro hinjected
        rw [hk] at hinjected
        cases hinjected
      · exact fun _ => ⟨q, hq, hv, rfl⟩

end Consistent
end Store
end BuildAnalysis.Engine
