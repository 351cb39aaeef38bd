import BuildAnalysis.Proofs.Collection.First
import BuildAnalysis.Proofs.Collection.Sorted
import BuildAnalysis.Toolchain.Resolution

/-!
# What a platform provides

A registered toolchain suits a platform if it can be used there. A context provides what is asked
for if it names a registered platform with the constraints asked for, and a toolchain that suits it
for each type that is asked for. The walk over the types finds the first toolchain of each.
-/
namespace BuildAnalysis

theorem Toolchain.isUsable_iff {t : Toolchain} {execution target : SortedSet Label} :
    t.isUsable execution target = true ↔
      (∀ l ∈ t.execution, l ∈ execution) ∧ ∀ l ∈ t.target, l ∈ target := by
  rw [isUsable, Bool.and_eq_true, SortedSet.isSubset_iff, SortedSet.isSubset_iff]

namespace ToolchainRegistry

structure Suits (r : ToolchainRegistry) (type : Label) (execution target : SortedSet Label)
    (t : Toolchain) : Prop where
  registered : t ∈ r.toolchains
  type : t.type = type
  execution : ∀ l ∈ t.execution, l ∈ execution
  target : ∀ l ∈ t.target, l ∈ target

/-- The context names a registered platform with the constraints asked for, and for each type asked
for, and no other, a toolchain that suits the platform and the constraints of the target. -/
structure Provides (r : ToolchainRegistry) (target : SortedSet Label)
    (types constraints : Label → Prop) (p : ExecutionPlatform) (c : ToolchainContext) : Prop where
  registered : p ∈ r.executionPlatforms
  chosen : c.executionPlatform = some p.label
  constrained : ∀ l, constraints l → l ∈ p.constraints
  complete : ∀ type, types type ↔ ∃ i, c.implementations.get? type = some i
  usable : ∀ type i, c.implementations.get? type = some i →
    ∃ t, r.Suits type p.constraints target t ∧ t.implementation = i

/-- What is provided depends only on what is asked for. -/
theorem Provides.congr {r : ToolchainRegistry} {target : SortedSet Label}
    {types types' constraints constraints' : Label → Prop} {p : ExecutionPlatform}
    {c : ToolchainContext} (h : r.Provides target types constraints p c)
    (htypes : ∀ l, types' l ↔ types l) (hconstraints : ∀ l, constraints' l ↔ constraints l) :
    r.Provides target types' constraints' p c :=
  { h with
    constrained := fun l hl => h.constrained l ((hconstraints l).mp hl)
    complete := fun type => (htypes type).trans (h.complete type) }

variable {r : ToolchainRegistry} {k : ToolchainKey} {execution target : SortedSet Label}

theorem toolchain?_eq_some_iff {type : Label} {t : Toolchain} :
    r.toolchain? type execution target = some t ↔
      First (r.Suits type execution target) r.toolchains t := by
  unfold toolchain?
  rw [find?_eq_some_iff_first]
  refine first_congr fun t ht => ?_
  simp only [Bool.and_eq_true, beq_iff_eq, Toolchain.isUsable_iff]
  exact ⟨fun h => ⟨ht, h.1, h.2.1, h.2.2⟩, fun h => ⟨h.type, h.execution, h.target⟩⟩

/-- The types that were served have the first toolchain that can be used, and nothing else has
changed. -/
theorem get?_serve {types : List Label} {found served : SortedMap Label Label}
    (h : r.serve execution target types found = .ok served) (type : Label) :
    if type ∈ types then ∃ t, r.toolchain? type execution target = some t ∧
      served.get? type = some t.implementation
    else served.get? type = found.get? type := by
  induction types generalizing found with
  | nil =>
      obtain rfl := Except.ok.inj h
      rfl
  | cons first types ih =>
      unfold serve at h
      split at h
      next => cases h
      next t ht =>
        have hrest := ih h
        by_cases hmem : type ∈ types
        · rw [if_pos hmem] at hrest
          rw [if_pos (List.mem_cons_of_mem _ hmem)]
          exact hrest
        · rw [if_neg hmem, SortedMap.get?_insert] at hrest
          by_cases hfirst : type = first
          · subst hfirst
            rw [if_pos rfl] at hrest
            rw [if_pos List.mem_cons_self]
            exact ⟨t, ht, hrest⟩
          · rw [if_neg hfirst] at hrest
            rw [if_neg (by simp [hfirst, hmem])]
            exact hrest

theorem offered_eq_ok {ps : List ExecutionPlatform} (h : r.offered k = .ok ps) :
    (k.platform = none ∧ ps = r.executionPlatforms) ∨
    ∃ forced p, k.platform = some forced ∧
      First (fun q => q.label = forced) r.executionPlatforms p ∧ ps = [p] := by
  unfold offered at h
  split at h
  next hnone => exact .inl ⟨hnone, (Except.ok.inj h).symm⟩
  next forced hforced =>
    split at h
    next p hp =>
      have hfirst : First (fun q => q.label = forced) r.executionPlatforms p := by
        simpa using find?_eq_some_iff_first.mp hp
      exact .inr ⟨forced, p, hforced, hfirst, (Except.ok.inj h).symm⟩
    next => cases h

end ToolchainRegistry
end BuildAnalysis
