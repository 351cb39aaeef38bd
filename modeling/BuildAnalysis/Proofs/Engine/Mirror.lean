import BuildAnalysis.Proofs.Engine.Store

/-!
# The record of dependents mirrors the dependencies

A store that has been built by storing computed values, setting injected ones and dropping keys
records for every key exactly the stored keys that were computed from it. In the middle of a sweep
whole lists of dependents are gone, so that the record may miss keys; these are all in the queue.
-/
namespace BuildAnalysis.Engine.Store

variable {S : KeySpace} {s t : Store S} {k l d : S.Key} {queue rest : List S.Key}

/-- The stores that storing, setting and dropping values lead to. What a computed value was
computed from need not have a value, and may be listed more than once. -/
inductive Built : Store S → Prop
  | empty : Built {}
  | insertComputed {s : Store S} {k : S.Key} (h : Built s) (hk : S.isInjected k = false)
      (v : S.Value k) (deps : List S.Key) : Built (s.insertComputed k v deps).1
  | setInjected {s : Store S} {k : S.Key} (h : Built s) (hk : S.isInjected k = true)
      (v : S.Value k) : Built (s.setInjected k v).1
  | invalidate {s : Store S} (h : Built s) (k : S.Key) : Built (s.invalidate k).1

/-- The value of `k` is stored, and was computed from `d`. -/
def ComputedFrom (s : Store S) (k d : S.Key) : Prop := ∃ e ∈ s.entries, e.key = k ∧ d ∈ e.deps

/-- The record of dependents is right, up to keys of a queue that it may miss. -/
structure MirroredUpTo (s : Store S) (queue : List S.Key) : Prop where
  unique : s.Unique
  given : ∀ e ∈ s.entries, S.isInjected e.key = true → e.deps = []
  sound : ∀ k d, k ∈ s.dependentsOf d → s.ComputedFrom k d
  complete : ∀ k d, s.ComputedFrom k d → k ∈ queue ∨ k ∈ s.dependentsOf d

/-- The record of dependents is right. -/
abbrev Mirrored (s : Store S) : Prop := s.MirroredUpTo []

theorem Mirrored.mem_dependentsOf_iff (h : s.Mirrored) :
    k ∈ s.dependentsOf d ↔ s.ComputedFrom k d :=
  ⟨h.sound k d, fun hkd => (h.complete k d hkd).resolve_left List.not_mem_nil⟩

theorem computedFrom_remove : (s.remove k).ComputedFrom l d ↔ l ≠ k ∧ s.ComputedFrom l d := by
  simp only [ComputedFrom, remove_entries, List.mem_filter, decide_eq_true_eq]
  constructor
  · rintro ⟨e, ⟨he, hek⟩, rfl, hd⟩
    exact ⟨hek, e, he, rfl, hd⟩
  · rintro ⟨hlk, e, he, rfl, hd⟩
    exact ⟨e, ⟨he, hlk⟩, rfl, hd⟩

theorem entry?_eq_some {e : Entry S} (h : s.entry? k = some e) : e ∈ s.entries ∧ e.key = k :=
  ⟨List.mem_of_find?_eq_some h, by simpa using List.find?_some h⟩

theorem Unique.remove (h : s.Unique) (k : S.Key) : (s.remove k).Unique := by
  refine h.sublist ?_
  rw [remove_entries]
  exact List.filter_sublist.map Entry.key

theorem nodup_keys_append {es : List (Entry S)} {e : Entry S} (h : (es.map Entry.key).Nodup)
    (hnew : ∀ f ∈ es, f.key ≠ e.key) : ((es ++ [e]).map Entry.key).Nodup := by
  rw [List.map_append, List.map_cons, List.map_nil]
  refine List.nodup_append.mpr ⟨h, List.nodup_singleton _, fun a ha b hb => ?_⟩
  obtain ⟨f, hf, rfl⟩ := List.mem_map.mp ha
  rw [List.mem_singleton.mp hb]
  exact hnew f hf

theorem Unique.set (h : s.Unique) (v : S.Value k) : (s.set k v).Unique := by
  refine nodup_keys_append (h.sublist (List.filter_sublist.map _)) fun e he => ?_
  simpa using (List.mem_filter.mp he).2

/-- A key that is removed is no longer recorded as a dependent. -/
theorem not_mem_dependentsOf_remove (unique : s.Unique)
    (sound : k ∈ s.dependentsOf d → s.ComputedFrom k d) : k ∉ (s.remove k).dependentsOf d := by
  intro hk
  obtain ⟨e, he, hek, hd⟩ := sound (mem_dependentsOf_remove hk)
  unfold remove at hk
  split at hk
  next hnone => exact entry?_eq_none hnone e he hek
  next f hf =>
    obtain ⟨hfs, hfk⟩ := entry?_eq_some hf
    obtain rfl : e = f := unique.eq he hfs (hek.trans hfk.symm)
    exact ((mem_dependentsOf_foldl_dropDependent _ _ _).mp hk).2 ⟨rfl, hd⟩

namespace MirroredUpTo

theorem mono (h : s.MirroredUpTo queue) (hsub : queue ⊆ rest) : s.MirroredUpTo rest :=
  { h with complete := fun k d hkd => (h.complete k d hkd).imp_left fun hk => hsub hk }

theorem remove (h : s.MirroredUpTo (k :: rest)) : (s.remove k).MirroredUpTo rest where
  unique := h.unique.remove k
  given e he := by
    rw [remove_entries] at he
    exact h.given e (List.mem_filter.mp he).1
  sound l d hl := by
    refine computedFrom_remove.mpr ⟨?_, h.sound l d (mem_dependentsOf_remove hl)⟩
    rintro rfl
    exact not_mem_dependentsOf_remove h.unique (h.sound l d) hl
  complete l d hld := by
    obtain ⟨hlk, hld⟩ := computedFrom_remove.mp hld
    rcases h.complete l d hld with hl | hl
    · exact .inl ((List.mem_cons.mp hl).resolve_left hlk)
    · exact .inr (mem_dependentsOf_remove_of_ne hlk hl)

theorem dropDependentsOf (h : s.MirroredUpTo queue) (k : S.Key) :
    (s.dropDependentsOf k).MirroredUpTo (s.dependentsOf k ++ queue) where
  unique := h.unique
  given := h.given
  sound l d hl := by
    rw [dependentsOf_dropDependentsOf] at hl
    split at hl
    next => cases hl
    next => exact h.sound l d hl
  complete l d hld := by
    rw [dependentsOf_dropDependentsOf]
    rcases h.complete l d hld with hl | hl
    · exact .inl (List.mem_append_right _ hl)
    · split
      next hdk => exact .inl (List.mem_append_left _ (hdk ▸ hl))
      next => exact .inr hl

/-- The step of a sweep. -/
theorem pop (h : s.MirroredUpTo (k :: rest)) :
    ((s.dropDependentsOf k).remove k).MirroredUpTo (s.dependentsOf k ++ rest) := by
  refine remove ((h.dropDependentsOf k).mono fun l hl => ?_)
  simp only [List.mem_append, List.mem_cons] at hl ⊢
  tauto

theorem sweep (h : s.MirroredUpTo queue) : (s.sweep queue).1.Mirrored := by
  fun_induction Store.sweep s queue with
  | case1 s => exact h
  | case2 s k rest more lighter swept ih => exact ih h.pop

end MirroredUpTo

namespace Mirrored

variable (h : s.Mirrored)
include h

theorem dropDependentsOf (k : S.Key) :
    (s.dropDependentsOf k).MirroredUpTo (s.dependentsOf k) := by
  have := MirroredUpTo.dropDependentsOf h k
  rwa [List.append_nil] at this

theorem dropComputedFrom (k : S.Key) : (s.dropComputedFrom k).1.Mirrored :=
  (h.dropDependentsOf k).sweep

theorem invalidate (k : S.Key) : (s.invalidate k).1.Mirrored :=
  ((h.dropComputedFrom k).mono (List.nil_subset [k])).remove

/-- Nothing that was set was computed from anything, so no record of it is left behind. -/
theorem set (hk : S.isInjected k = true) (v : S.Value k) : (s.set k v).Mirrored := by
  have hfree : ∀ d, ¬ s.ComputedFrom k d := by
    rintro d ⟨e, he, rfl, hd⟩
    rw [h.given e he hk] at hd
    cases hd
  have hcomputed : ∀ l d, (s.set k v).ComputedFrom l d ↔ s.ComputedFrom l d := by
    intro l d
    simp only [ComputedFrom, Store.set, List.mem_append, List.mem_filter, List.mem_singleton,
      decide_eq_true_eq]
    constructor
    · rintro ⟨e, ⟨he, -⟩ | rfl, rfl, hd⟩
      · exact ⟨e, he, rfl, hd⟩
      · cases hd
    · rintro ⟨e, he, rfl, hd⟩
      have hek : e.key ≠ k := fun hek => hfree d ⟨e, he, hek, hd⟩
      exact ⟨e, .inl ⟨he, hek⟩, rfl, hd⟩
  refine ⟨h.unique.set v, ?_, fun l d hl => (hcomputed l d).mpr (h.sound l d hl),
    fun l d hld => h.complete l d ((hcomputed l d).mp hld)⟩
  refine List.forall_mem_append.mpr ⟨fun e he => h.given e (List.mem_filter.mp he).1, ?_⟩
  simp

theorem setInjected (hk : S.isInjected k = true) (v : S.Value k) :
    (s.setInjected k v).1.Mirrored := by
  rcases s.setInjected_eq k v with ⟨_, heq⟩ | heq
  · rwa [heq]
  · rw [heq]
    exact (h.dropComputedFrom k).set hk v

theorem insertComputed (hk : S.isInjected k = false) (v : S.Value k) (deps : List S.Key) :
    (s.insertComputed k v deps).1.Mirrored := by
  cases hold : s.value? k with
  | some old => rwa [insertComputed_of_some hold]
  | none =>
      have hnew : ∀ e ∈ s.entries, e.key ≠ k := by
        intro e he hek
        have hcontains := contains_of_mem he
        rw [hek, contains, hold] at hcontains
        cases hcontains
      have hcomputed : ∀ l d, (s.insertComputed k v deps).1.ComputedFrom l d ↔
          s.ComputedFrom l d ∨ (l = k ∧ d ∈ deps) := by
        intro l d
        rw [insertComputed_of_none hold]
        simp only [ComputedFrom, List.mem_append, List.mem_singleton]
        constructor
        · rintro ⟨e, he | rfl, rfl, hd⟩
          · exact .inl ⟨e, he, rfl, hd⟩
          · exact .inr ⟨rfl, hd⟩
        · rintro (⟨e, he, rfl, hd⟩ | ⟨rfl, hd⟩)
          · exact ⟨e, .inl he, rfl, hd⟩
          · exact ⟨_, .inr rfl, rfl, hd⟩
      have hdependents : ∀ l d, l ∈ (s.insertComputed k v deps).1.dependentsOf d ↔
          l ∈ s.dependentsOf d ∨ (l = k ∧ d ∈ deps) := by
        intro l d
        rw [insertComputed_of_none hold]
        exact mem_dependentsOf_foldl_addDependent _ _ _
      refine ⟨?_, ?_, fun l d hl => ?_, fun l d hld => .inr ?_⟩
      · rw [insertComputed_of_none hold]
        exact nodup_keys_append h.unique hnew
      · rw [insertComputed_of_none hold]
        refine List.forall_mem_append.mpr ⟨h.given, fun e he hek => ?_⟩
        rw [List.mem_singleton.mp he, hk] at hek
        cases hek
      · exact (hcomputed l d).mpr (((hdependents l d).mp hl).imp_left (h.sound l d))
      · exact (hdependents l d).mpr
          (((hcomputed l d).mp hld).imp_left h.mem_dependentsOf_iff.mpr)

end Mirrored

theorem mirrored_empty : ({} : Store S).Mirrored where
  unique := List.nodup_nil
  given := by simp
  sound := by simp [dependentsOf, Listing.find?]
  complete := by simp [ComputedFrom]

theorem Built.mirrored (h : s.Built) : s.Mirrored := by
  induction h with
  | empty => exact mirrored_empty
  | insertComputed _ hk v deps ih => exact ih.insertComputed hk v deps
  | setInjected _ hk v ih => exact ih.setInjected hk v
  | invalidate _ k ih => exact ih.invalidate k

end BuildAnalysis.Engine.Store
