import Mathlib.Data.List.Basic

/-!
# The first item with a property

The item that a search through a list should find, for any property: nothing before it has the
property. There is at most one, and there is one if any item has the property.
-/
namespace BuildAnalysis

variable {α : Type} {P Q : α → Prop} {xs : List α} {x y : α}

inductive First (P : α → Prop) : List α → α → Prop
  | here {x : α} {xs : List α} (holds : P x) : First P (x :: xs) x
  | there {x y : α} {xs : List α} (skipped : ¬ P y) (later : First P xs x) : First P (y :: xs) x

@[simp] theorem not_first_nil : ¬ First P [] x := nofun

theorem first_cons : First P (y :: xs) x ↔ (P y ∧ y = x) ∨ (¬ P y ∧ First P xs x) := by
  constructor
  · rintro (holds | ⟨skipped, later⟩)
    · exact .inl ⟨holds, rfl⟩
    · exact .inr ⟨skipped, later⟩
  · rintro (⟨holds, rfl⟩ | ⟨skipped, later⟩)
    · exact .here holds
    · exact .there skipped later

namespace First

theorem mem (h : First P xs x) : x ∈ xs := by
  induction h with
  | here _ => exact List.mem_cons_self
  | there _ _ ih => exact List.mem_cons_of_mem _ ih

theorem holds (h : First P xs x) : P x := by
  induction h with
  | here holds => exact holds
  | there _ _ ih => exact ih

theorem unique (hx : First P xs x) (hy : First P xs y) : x = y := by
  induction hx with
  | here holds =>
      rcases first_cons.mp hy with ⟨_, rfl⟩ | ⟨skipped, _⟩
      · rfl
      · exact absurd holds skipped
  | there skipped _ ih =>
      rcases first_cons.mp hy with ⟨holds, _⟩ | ⟨_, later⟩
      · exact absurd holds skipped
      · exact ih later

end First

theorem exists_first (h : ∃ x ∈ xs, P x) : ∃ x, First P xs x := by
  induction xs with
  | nil => simp at h
  | cons y ys ih =>
      by_cases hy : P y
      · exact ⟨y, .here hy⟩
      · obtain ⟨x, hx, hPx⟩ := h
        rcases List.mem_cons.mp hx with rfl | hx
        · exact absurd hPx hy
        · obtain ⟨z, hz⟩ := ih ⟨x, hx, hPx⟩
          exact ⟨z, .there hy hz⟩

theorem first_of_unique (hx : x ∈ xs) (holds : P x) (unique : ∀ y, P y → y = x) :
    First P xs x := by
  obtain ⟨y, hy⟩ := exists_first ⟨x, hx, holds⟩
  exact unique y hy.holds ▸ hy

theorem first_congr (h : ∀ y ∈ xs, P y ↔ Q y) : First P xs x ↔ First Q xs x := by
  induction xs with
  | nil => simp
  | cons y ys ih =>
      obtain ⟨hy, hys⟩ := List.forall_mem_cons.mp h
      rw [first_cons, first_cons, hy, ih hys]

theorem first_append {ys : List α} : First P (xs ++ ys) x ↔
    First P xs x ∨ ((∀ y ∈ xs, ¬ P y) ∧ First P ys x) := by
  induction xs with
  | nil => simp
  | cons y xs ih =>
      rw [List.cons_append, first_cons, first_cons, ih, List.forall_mem_cons]
      tauto

theorem first_filter (p : α → Bool) :
    First P (xs.filter p) x ↔ First (fun y => p y = true ∧ P y) xs x := by
  induction xs with
  | nil => simp
  | cons y ys ih =>
      rw [List.filter_cons, first_cons, ← ih]
      by_cases hy : p y = true
      · simp [hy, first_cons]
      · simp [hy]

theorem find?_eq_some_iff_first {p : α → Bool} :
    xs.find? p = some x ↔ First (fun y => p y = true) xs x := by
  induction xs with
  | nil => simp
  | cons y ys ih =>
      rw [first_cons, List.find?_cons, ← ih]
      cases p y <;> simp

end BuildAnalysis
