import Mathlib.Data.List.Infix
import Mathlib.Order.Defs.Unbundled
import BuildAnalysis.Label.Pattern
import BuildAnalysis.Proofs.Label.Spelling

/-!
# Packages below packages

Whether a package lies below another one is decided on the characters of the paths. It comes to a
comparison of components: those of the upper path come first in the lower one, and everything lies
below the workspace root. So packages are partially ordered, from the root down, and a recursive
pattern selects more the higher its package is.
-/
namespace BuildAnalysis

/-! ### Prefixes of split lists -/

section Splitting

variable {α : Type} {c : α} {xs ys : List α}

theorem intercalate_append_cons (c : α) {xss : List (List α)} (hne : xss ≠ []) (ys : List α)
    (yss : List (List α)) :
    [c].intercalate (xss ++ ys :: yss) =
      [c].intercalate xss ++ c :: [c].intercalate (ys :: yss) := by
  induction xss with
  | nil => exact absurd rfl hne
  | cons xs xss ih =>
      cases xss with
      | nil => simp [List.intercalate_cons_cons]
      | cons xs' xss =>
          have hrest := ih (List.cons_ne_nil xs' xss)
          rw [List.cons_append, List.cons_append, List.intercalate_cons_cons, ← List.cons_append,
            hrest, List.intercalate_cons_cons]
          simp only [List.append_assoc]

theorem splitOn_prefix_iff [DecidableEq α] :
    xs.splitOn c <+: ys.splitOn c ↔ ys = xs ∨ ∃ rest, ys = xs ++ c :: rest := by
  constructor
  · intro ⟨parts, hparts⟩
    have hys : ys = [c].intercalate (xs.splitOn c ++ parts) := by
      rw [hparts, List.intercalate_splitOn]
    cases parts with
    | nil =>
        left
        rw [hys, List.append_nil, List.intercalate_splitOn]
    | cons part parts =>
        right
        refine ⟨[c].intercalate (part :: parts), ?_⟩
        rw [hys, intercalate_append_cons c (List.splitOn_ne_nil c xs), List.intercalate_splitOn]
  · intro h
    cases h with
    | inl heq => rw [heq]
    | inr hrest =>
        obtain ⟨rest, rfl⟩ := hrest
        rw [List.splitOn_append_cons_self]
        exact List.prefix_append _ _

end Splitting

namespace PackagePath

variable {p q r : PackagePath}

def components (p : PackagePath) : List (List Char) := p.chars.splitOn '/'

theorem isEmpty_iff : p.path.isEmpty = true ↔ p = root := by
  rw [String.isEmpty_iff]
  constructor
  · intro h
    exact eq_of_chars (congrArg String.toList h)
  · intro h
    rw [h]
    rfl

/-- The next character after the upper path, if there is one, is a slash. -/
theorem isBelow_iff :
    q.isBelow p = true ↔ p = root ∨ q = p ∨ ∃ rest, q.chars = p.chars ++ '/' :: rest := by
  rw [isBelow, Bool.or_eq_true, isEmpty_iff]
  refine or_congr_right ?_
  cases hafter : afterStart? p.chars q.chars with
  | none =>
      have hnot : ∀ after, q.chars ≠ p.chars ++ after := fun after h => by
        rw [afterStart?_eq_some_iff.mpr h] at hafter
        cases hafter
      have hself : q ≠ p := fun h => hnot [] (by rw [h, List.append_nil])
      simp [hself, hnot]
  | some after =>
      have hchars : q.chars = p.chars ++ after := afterStart?_eq_some_iff.mp hafter
      cases after with
      | nil =>
          have hself : q = p := eq_of_chars (hchars.trans (List.append_nil _))
          simp [hself]
      | cons c after =>
          have hself : q ≠ p := fun h => by
            rw [h] at hchars
            simpa using congrArg List.length hchars
          simp [hself, hchars]

theorem isBelow_iff_components : q.isBelow p = true ↔ p = root ∨ p.components <+: q.components := by
  have hself : q.chars = p.chars ↔ q = p := ⟨eq_of_chars, congrArg chars⟩
  rw [isBelow_iff, components, components, splitOn_prefix_iff, hself]

/-! ### The order of packages -/

theorem isBelow_self (p : PackagePath) : p.isBelow p = true :=
  isBelow_iff_components.mpr (.inr List.prefix_rfl)

theorem isBelow_root (p : PackagePath) : p.isBelow root = true :=
  isBelow_iff_components.mpr (.inl rfl)

theorem eq_root_of_isBelow (h : root.isBelow p = true) : p = root := by
  rcases isBelow_iff.mp h with h | h | ⟨rest, h⟩
  · exact h
  · exact h.symm
  · have hlength := congrArg List.length h
    rw [List.length_append, List.length_cons] at hlength
    exact absurd hlength (Nat.succ_ne_zero _).symm

theorem isBelow_trans (hq : q.isBelow p = true) (hr : r.isBelow q = true) :
    r.isBelow p = true := by
  cases isBelow_iff_components.mp hq with
  | inl hroot =>
      rw [hroot]
      exact isBelow_root r
  | inr hpq =>
      cases isBelow_iff_components.mp hr with
      | inl hroot =>
          rw [hroot] at hq
          rw [eq_root_of_isBelow hq]
          exact isBelow_root r
      | inr hqr => exact isBelow_iff_components.mpr (.inr (hpq.trans hqr))

theorem isBelow_antisymm (hq : q.isBelow p = true) (hp : p.isBelow q = true) : p = q := by
  cases isBelow_iff_components.mp hq with
  | inl hroot =>
      rw [hroot] at hp ⊢
      exact (eq_root_of_isBelow hp).symm
  | inr hpq =>
      cases isBelow_iff_components.mp hp with
      | inl hroot =>
          rw [hroot] at hq ⊢
          exact eq_root_of_isBelow hq
      | inr hqp =>
          have hcomponents : p.components = q.components := antisymm hpq hqp
          have hchars := congrArg ['/'].intercalate hcomponents
          rw [components, components, List.intercalate_splitOn, List.intercalate_splitOn] at hchars
          exact eq_of_chars hchars

instance : IsPartialOrder PackagePath fun p q => q.isBelow p = true where
  refl := isBelow_self
  trans _ _ _ := isBelow_trans
  antisymm _ _ := isBelow_antisymm

/-- A package has targets, so what its recursive pattern selects tells where the package lies. -/
theorem isBelow_iff_selects : q.isBelow p = true ↔
    ∀ l, (Pattern.recursive q).selects l = true → (Pattern.recursive p).selects l = true := by
  constructor
  · intro h l hl
    exact isBelow_trans h hl
  · intro h
    exact h ⟨q, ⟨"any", by decide, by decide⟩⟩ (isBelow_self q)

/-- A package lies below another one if the other is the root, or if the components of the other
come first among its own. This is a partial order, whose least element is the root; one package
lies below another exactly if its recursive pattern selects no label that the other's does not. -/
theorem isBelow_componentwise :
    (∀ p q : PackagePath, q.isBelow p = true ↔ p = root ∨ p.components <+: q.components) ∧
      IsPartialOrder PackagePath (fun p q => q.isBelow p = true) ∧
      (∀ q : PackagePath, q.isBelow root = true) ∧
      ∀ p q : PackagePath, q.isBelow p = true ↔
        ∀ l, (Pattern.recursive q).selects l = true → (Pattern.recursive p).selects l = true :=
  ⟨fun _ _ => isBelow_iff_components, inferInstance, isBelow_root, fun _ _ => isBelow_iff_selects⟩

/-- A name that goes on behind the upper path is another component, and repeated slashes enclose
empty components. -/
example : PackagePath.isBelow ⟨"foo/bar-baz", rfl, by decide⟩ ⟨"foo/bar", rfl, by decide⟩ = false ∧
    PackagePath.isBelow ⟨"foo//bar", rfl, by decide⟩ ⟨"foo", rfl, by decide⟩ = true ∧
    PackagePath.isBelow ⟨"/foo", rfl, by decide⟩ ⟨"foo", rfl, by decide⟩ = false := by
  decide

end PackagePath
end BuildAnalysis
