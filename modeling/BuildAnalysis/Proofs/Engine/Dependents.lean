import BuildAnalysis.Proofs.Engine.History
import BuildAnalysis.Proofs.Engine.Invalidation

/-!
# The dependents that are recorded

In every store that has been built by storing, setting and dropping values, a key is recorded as a
dependent of another exactly if it is stored and was computed from it. The record has one list for
each key and no dependent twice in it, so that nothing is recorded beside what is found under a key,
and no list holds a key without a value. The stores of an engine are all built in this way.
-/
namespace BuildAnalysis.Engine

variable {S : KeySpace}

namespace Store

variable {s : Store S} {k d : S.Key} {ds : List (S.Key × List S.Key)}

structure Tidy (ds : List (S.Key × List S.Key)) : Prop where
  keys : (ds.map Prod.fst).Nodup
  lists : ∀ e ∈ ds, e.2.Nodup

theorem addDependent_eq_put (k dep : S.Key) (ds : List (S.Key × List S.Key)) :
    addDependent k dep ds =
      Listing.put dep (Listing.add ((Listing.find? dep ds).getD []) k) ds := by
  induction ds with
  | nil => rfl
  | cons e es ih =>
      by_cases he : e.1 = dep
      · rw [addDependent, if_pos he, Listing.put, if_pos he, Listing.find?, if_pos he, he]
        rfl
      · rw [addDependent, if_neg he, Listing.put, if_neg he, Listing.find?, if_neg he, ih]

namespace Tidy

theorem nodup_found (h : Tidy ds) (dep : S.Key) : ((Listing.find? dep ds).getD []).Nodup := by
  cases hfound : Listing.find? dep ds with
  | none => exact List.nodup_nil
  | some xs => exact h.lists _ (Listing.mem_of_find? hfound)

theorem addDependent (h : Tidy ds) (k dep : S.Key) : Tidy (addDependent k dep ds) := by
  rw [addDependent_eq_put]
  constructor
  · rw [Listing.map_fst_put]
    exact Listing.nodup_add h.keys dep
  · intro e he
    rcases Listing.mem_put he with rfl | he
    · exact Listing.nodup_add (h.nodup_found dep) k
    · exact h.lists e he

theorem addDependents (h : Tidy ds) (k : S.Key) (deps : List S.Key) :
    Tidy (deps.foldl (fun ds dep => Store.addDependent k dep ds) ds) := by
  induction deps generalizing ds with
  | nil => exact h
  | cons dep deps ih => exact ih (h.addDependent k dep)

theorem dropDependent (h : Tidy ds) (k dep : S.Key) : Tidy (dropDependent k ds dep) := by
  constructor
  · have hkeys : (Store.dropDependent k ds dep).map Prod.fst = ds.map Prod.fst := by
      rw [Store.dropDependent, List.map_map]
      refine List.map_congr_left fun e _ => ?_
      dsimp only [Function.comp_apply]
      split <;> rfl
    rw [hkeys]
    exact h.keys
  · intro e he
    obtain ⟨e', he', rfl⟩ := List.mem_map.mp he
    split
    next => exact (h.lists e' he').filter _
    next => exact h.lists e' he'

theorem dropDependents (h : Tidy ds) (k : S.Key) (deps : List S.Key) :
    Tidy (deps.foldl (Store.dropDependent k) ds) := by
  induction deps generalizing ds with
  | nil => exact h
  | cons dep deps ih => exact ih (h.dropDependent k dep)

theorem filter (h : Tidy ds) (p : S.Key × List S.Key → Bool) : Tidy (ds.filter p) :=
  ⟨h.keys.sublist (List.filter_sublist.map Prod.fst),
    fun e he => h.lists e (List.mem_filter.mp he).1⟩

theorem remove (h : Tidy s.dependents) (k : S.Key) : Tidy (s.remove k).dependents := by
  unfold Store.remove
  split
  next => exact h
  next e _ => exact h.dropDependents k e.deps

theorem sweep {queue : List S.Key} (h : Tidy s.dependents) :
    Tidy (s.sweep queue).1.dependents := by
  fun_induction Store.sweep s queue with
  | case1 s => exact h
  | case2 s k rest more lighter swept ih =>
      have hlighter : Tidy lighter.dependents := h.filter _
      exact ih (hlighter.remove k)

theorem dropComputedFrom (h : Tidy s.dependents) (k : S.Key) :
    Tidy (s.dropComputedFrom k).1.dependents := by
  have hlighter : Tidy (s.dropDependentsOf k).dependents := h.filter _
  exact hlighter.sweep

theorem setInjected (h : Tidy s.dependents) (v : S.Value k) :
    Tidy (s.setInjected k v).1.dependents := by
  rcases s.setInjected_eq k v with ⟨_, heq⟩ | heq
  · rwa [heq]
  · rw [heq]
    exact h.dropComputedFrom k

theorem insertComputed (h : Tidy s.dependents) (v : S.Value k) (deps : List S.Key) :
    Tidy (s.insertComputed k v deps).1.dependents := by
  cases hold : s.value? k with
  | some old => rwa [insertComputed_of_some hold]
  | none =>
      rw [insertComputed_of_none hold]
      exact h.addDependents k deps

theorem dependentsOf_eq (h : Tidy s.dependents) {e : S.Key × List S.Key}
    (he : e ∈ s.dependents) : s.dependentsOf e.1 = e.2 := by
  rw [dependentsOf, (Listing.find?_eq_some_iff h.keys).mpr he, Option.getD_some]

end Tidy

theorem Built.tidy (h : s.Built) : Tidy s.dependents := by
  induction h with
  | empty => exact ⟨List.nodup_nil, fun _ he => absurd he List.not_mem_nil⟩
  | insertComputed _ _ v deps ih => exact ih.insertComputed v deps
  | setInjected _ _ v ih => exact ih.setInjected v
  | @invalidate s _ k ih => exact (ih.dropComputedFrom k).remove k

theorem Unique.computedFrom_iff (h : s.Unique) :
    s.ComputedFrom k d ↔ ∃ e, s.entry? k = some e ∧ d ∈ e.deps := by
  constructor
  · rintro ⟨e, he, rfl, hd⟩
    exact ⟨e, h.entry_eq he, hd⟩
  · rintro ⟨e, he, hd⟩
    exact ⟨e, (entry?_eq_some he).1, (entry?_eq_some he).2, hd⟩

theorem mem_entries_insertComputed (h : s.value? k = none) (v : S.Value k) (deps : List S.Key) :
    ⟨k, v, deps⟩ ∈ (s.insertComputed k v deps).1.entries := by
  rw [insertComputed_of_none h]
  exact List.mem_append_right _ List.mem_cons_self

theorem ComputedFrom.contains (h : s.ComputedFrom k d) : s.contains k = true := by
  obtain ⟨e, he, rfl, -⟩ := h
  exact contains_of_mem he

/-- In a built store a key is recorded as a dependent of another exactly if it is stored and the
other is among what it was computed from. There is one list for each key, without repetition, and
every key in it is stored. -/
theorem dependents_mirror_dependencies (h : s.Built) :
    (∀ k d, k ∈ s.dependentsOf d ↔ ∃ e, s.entry? k = some e ∧ d ∈ e.deps) ∧
      (s.dependents.map Prod.fst).Nodup ∧
      ∀ e ∈ s.dependents, e.2.Nodup ∧ ∀ k ∈ e.2, s.contains k = true := by
  have hmirrored := h.mirrored
  have htidy := h.tidy
  refine ⟨fun k d => ?_, htidy.keys, fun e he => ⟨htidy.lists e he, fun k hk => ?_⟩⟩
  · exact hmirrored.mem_dependentsOf_iff.trans hmirrored.unique.computedFrom_iff
  · rw [← htidy.dependentsOf_eq he] at hk
    exact (hmirrored.mem_dependentsOf_iff.mp hk).contains

end Store

namespace Session

variable {compute : Computation S} {s t : Session S}

theorem Step.built (h : s.Step compute t) (hs : s.store.Built) : t.store.Built := by
  cases h with
  | work h =>
      cases h with
      | idle es store world => rwa [store]
      | complete k v q computed replay result store world =>
          exact store ▸ hs.insertComputed computed v _
  | change c proper store world =>
      rw [store]
      cases c with
      | inject k v => exact hs.setInjected proper v
      | invalidate k => exact hs.invalidate k

theorem Steps.built (h : s.Steps compute t) (hs : s.store.Built) : t.store.Built := by
  induction h with
  | refl => exact hs
  | tail _ step ih => exact step.built ih

/-- Whatever was asked of an engine that began with nothing, its store is built. -/
theorem after_built (hs : s.store = {}) {history : List (Call S)}
    (h : ∀ c ∈ history, c.Proper compute) : (s.after history).store.Built :=
  (after_steps h).built (hs ▸ .empty)

end Session

namespace InvalidationSample

open Script Store

/-- One of the nodes is dropped and computed anew, from something else. -/
def rebuilt : Store space :=
  ((diamond.invalidate source).1.insertComputed left (number 5) [aside, aside]).1

theorem built_rebuilt : rebuilt.Built := (built_diamond.invalidate source).insertComputed rfl _ _

theorem entry_rebuilt : entry? rebuilt left = some ⟨left, number 5, [aside, aside]⟩ := by
  have hleft : (diamond.invalidate source).1.value? left = none := by
    refine Option.eq_none_iff_forall_ne_some.mpr fun v hv => ?_
    obtain ⟨deps, hmem⟩ := exists_mem_of_value? hv
    refine ((mem_entries_invalidate built_diamond.mirrored).mp hmem).2 (.inr (.single ?_))
    exact computedFrom_diamond.mpr (by simp)
  exact built_rebuilt.mirrored.unique.entry_eq (mem_entries_insertComputed hleft _ _)

theorem dependents_mirror_dependencies_rebuilt :
    diamond.Built ∧ rebuilt.Built ∧ left ∈ diamond.dependentsOf source ∧
      left ∈ rebuilt.dependentsOf aside ∧ left ∉ rebuilt.dependentsOf source := by
  obtain ⟨hdiamond, -⟩ := dependents_mirror_dependencies built_diamond
  obtain ⟨hrebuilt, -⟩ := dependents_mirror_dependencies built_rebuilt
  have hmem : ⟨left, number 1, [source]⟩ ∈ diamond.entries := by
    rw [entries_diamond]
    exact List.mem_cons_of_mem _ List.mem_cons_self
  have hbefore := built_diamond.mirrored.unique.entry_eq hmem
  refine ⟨built_diamond, built_rebuilt, (hdiamond left source).mpr ⟨_, hbefore, List.mem_cons_self⟩,
    (hrebuilt left aside).mpr ⟨_, entry_rebuilt, List.mem_cons_self⟩, fun hleft => ?_⟩
  obtain ⟨e, he, hsource⟩ := (hrebuilt left source).mp hleft
  obtain rfl := Option.some.inj (entry_rebuilt.symm.trans he)
  exact absurd hsource (by decide)

end InvalidationSample
end BuildAnalysis.Engine
