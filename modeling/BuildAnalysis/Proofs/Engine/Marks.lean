import BuildAnalysis.Proofs.Engine.History

/-!
# What effects leave behind

If an effect leaves a mark on the world that no effect removes, then whatever an engine goes
through, the effects of every cached computed key have left their marks: the task of the key has
performed them, and it would perform the same effects on the values that are cached now.
-/
namespace BuildAnalysis.Engine

variable {S : KeySpace} {compute : Computation S}

structure KeySpace.Persistent (S : KeySpace) (Mark : S.Effect → S.World → Prop) : Prop where
  made : ∀ e w, Mark e (S.perform e w).1
  kept : ∀ e f w, Mark e w → Mark e (S.perform f w).1

namespace KeySpace.Persistent

variable {Mark : S.Effect → S.World → Prop} (h : S.Persistent Mark)
include h

theorem kept_after {e : S.Effect} {w : S.World} (hw : Mark e w) (es : List S.Effect) :
    Mark e (S.worldAfter w es) := by
  induction es generalizing w with
  | nil => exact hw
  | cons f es ih => exact ih (h.kept e f w hw)

theorem made_after {e : S.Effect} {es : List S.Effect} (he : e ∈ es) (w : S.World) :
    Mark e (S.worldAfter w es) := by
  induction es generalizing w with
  | nil => cases he
  | cons f es ih =>
      rcases List.mem_cons.mp he with rfl | he
      · exact h.kept_after (h.made e w) es
      · exact ih he _

end KeySpace.Persistent

namespace Store

variable {s : Store S}

theorem mem_entries_apply {c : Change S} (hc : c.Proper) {e : Entry S}
    (he : e ∈ (s.apply c).1.entries) : e ∈ s.entries ∨ S.isInjected e.key = true := by
  cases c with
  | inject k v =>
      rcases s.setInjected_eq k v with ⟨_, heq⟩ | heq
      · exact .inl (heq ▸ he)
      · simp only [apply, heq, set] at he
        rcases List.mem_append.mp he with he | he
        · exact .inl ((s.swept_dropComputedFrom k).entries.subset (List.mem_filter.mp he).1)
        · obtain rfl := List.mem_singleton.mp he
          exact .inr hc
  | invalidate k =>
      simp only [apply, invalidate, remove_entries] at he
      exact .inl ((s.swept_dropComputedFrom k).entries.subset (List.mem_filter.mp he).1)

/-- What an entry that outlives a change was computed from keeps its value. -/
theorem value?_dep_apply (hs : s.Consistent compute) {c : Change S} (hc : c.Proper)
    {e : Entry S} (he : e ∈ (s.apply c).1.entries) {d : S.Key} (hd : d ∈ e.deps) :
    (s.apply c).1.value? d = s.value? d := by
  have hcontains := (hs.apply hc).contains_dep he hd
  cases c with
  | inject k v =>
      rcases s.setInjected_eq k v with ⟨_, heq⟩ | heq
      · rw [apply, heq]
      · simp only [apply, heq] at he hcontains ⊢
        rcases List.mem_append.mp he with he | he
        · have he := (List.mem_filter.mp he).1
          have hdk : d ≠ k := fun hdk => hs.not_mem_deps_dropComputedFrom he (hdk ▸ hd)
          have hwithin : (s.dropComputedFrom k).1.Within s :=
            hs.unique.within fun f hf => (s.swept_dropComputedFrom k).entries.subset hf
          rw [value?_set_of_ne v hdk]
          rw [contains, value?_set_of_ne v hdk] at hcontains
          exact (hwithin.value?_eq hcontains).symm
        · obtain rfl := List.mem_singleton.mp he
          cases hd
  | invalidate k =>
      have hwithin : (s.invalidate k).1.Within s := by
        refine hs.unique.within fun f hf => ?_
        rw [invalidate, remove_entries] at hf
        exact (s.swept_dropComputedFrom k).entries.subset (List.mem_filter.mp hf).1
      exact (hwithin.value?_eq hcontains).symm

end Store

namespace Session

variable {Mark : S.Effect → S.World → Prop} {s t : Session S}

/-- The effects of an entry's task have left their marks on a world. -/
def MarkedBy (compute : Computation S) (Mark : S.Effect → S.World → Prop) (st : Store S)
    (w : S.World) (e : Entry S) : Prop :=
  ∃ q, (compute e.key).replay st none = some q ∧ ∀ x ∈ q.effects, Mark x w

/-- The effects of all cached computed keys have left their marks. -/
def Marked (compute : Computation S) (Mark : S.Effect → S.World → Prop) (s : Session S) : Prop :=
  ∀ e ∈ s.store.entries, S.isInjected e.key = false → MarkedBy compute Mark s.store s.world e

theorem MarkedBy.congr {st st' : Store S} {w w' : S.World} {e : Entry S}
    (h : MarkedBy compute Mark st w e) (hexplains : st.Explains compute e)
    (hsame : ∀ d ∈ e.deps, st'.value? d = st.value? d) (hw : ∀ x, Mark x w → Mark x w') :
    MarkedBy compute Mark st' w' e := by
  obtain ⟨q, hq, hmarks⟩ := h
  obtain ⟨p, hp, _, hdeps⟩ := hexplains
  obtain rfl : q = p := Option.some.inj (hq.symm.trans hp)
  refine ⟨q, Task.replay_congr hq fun d hd => hsame d ?_, fun x hx => hw x (hmarks x hx)⟩
  rw [hdeps]
  exact Listing.mem_distinct.mpr hd

/-- A step leaves the marks of all keys that are still cached, and makes those of a new one. -/
theorem Step.marked (hmark : S.Persistent Mark) (h : s.Step compute t)
    (hs : s.store.Consistent compute) (hmarked : s.Marked compute Mark) :
    t.Marked compute Mark := by
  intro e he hk
  cases h with
  | work h =>
      cases h with
      | idle es store world =>
          rw [store] at he ⊢
          refine (hmarked e he hk).congr (hs.computed e he hk) (fun _ _ => rfl) fun x hx => ?_
          rw [world]
          exact hmark.kept_after hx es
      | complete k v q computed replay result store world =>
          have hwithin : s.store.Within t.store := store ▸ Store.within_insertComputed v _
          have hold : ∀ f ∈ s.store.entries, S.isInjected f.key = false →
              MarkedBy compute Mark t.store t.world f := by
            intro f hf hfk
            refine (hmarked f hf hfk).congr (hs.computed f hf hfk)
              (fun d hd => hwithin.value?_eq (hs.contains_dep hf hd)) fun x hx => ?_
            rw [world]
            exact hmark.kept_after hx q.effects
          cases hvalue : s.store.value? k with
          | some old =>
              rw [store, Store.insertComputed_of_some hvalue] at he
              exact hold e he hk
          | none =>
              rw [store, Store.insertComputed_of_none hvalue] at he
              rcases List.mem_append.mp he with he | he
              · exact hold e he hk
              · obtain rfl := List.mem_singleton.mp he
                refine ⟨q, Task.replay_congr replay fun d hd =>
                  hwithin.value?_eq (Task.replay_contains replay d hd), fun x hx => ?_⟩
                rw [world]
                exact hmark.made_after hx s.world
  | change c proper store world =>
      rw [store] at he
      have hold := (Store.mem_entries_apply proper he).resolve_right (by simp [hk])
      rw [store, world]
      exact (hmarked e hold hk).congr (hs.computed e hold hk)
        (fun d hd => Store.value?_dep_apply hs proper he hd) fun _ hx => hx

theorem Steps.marked (hmark : S.Persistent Mark) (h : s.Steps compute t)
    (hs : s.store.Consistent compute) (hmarked : s.Marked compute Mark) :
    t.Marked compute Mark := by
  induction h with
  | refl => exact hmarked
  | tail hsteps step ih => exact step.marked hmark (Steps.consistent hsteps hs) ih

theorem after_marked (hmark : S.Persistent Mark) (empty : s.store = {}) {history : List (Call S)}
    (proper : ∀ c ∈ history, c.Proper compute) : (s.after history).Marked compute Mark := by
  refine Steps.marked hmark (after_steps proper) (empty ▸ Store.consistent_empty compute) ?_
  intro e he
  rw [empty] at he
  cases he

end Session
end BuildAnalysis.Engine
