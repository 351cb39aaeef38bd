import Mathlib.Data.List.DropRight
import BuildAnalysis.Label.Basic

/-!
# Splitting text

What the parts of a text are that it is split into: at the last occurrence of a character, behind a
beginning, before an ending, and before the slashes at its end.
-/
namespace BuildAnalysis

variable {c : Char} {cs ds before after start ending : List Char}

/-! ### At the last occurrence of a character -/

theorem splitLast_eq_none_iff : splitLast c cs = none ↔ c ∉ cs := by
  induction cs with
  | nil => simp [splitLast]
  | cons x xs ih =>
      cases hxs : splitLast c xs with
      | some p =>
          have hc : c ∈ xs := by simpa [hxs] using ih
          simp [splitLast, hxs, hc]
      | none =>
          have hc : c ∉ xs := ih.mp hxs
          by_cases hx : x = c
          · simp [splitLast, hxs, hx]
          · simp [splitLast, hxs, hx, hc, Ne.symm hx]

theorem splitLast_append_cons (before : List Char) (h : c ∉ after) :
    splitLast c (before ++ c :: after) = some (before, after) := by
  induction before with
  | nil => simp [splitLast, splitLast_eq_none_iff.mpr h]
  | cons x before ih => simp [splitLast, ih]

theorem splitLast_eq_some_iff :
    splitLast c cs = some (before, after) ↔ cs = before ++ c :: after ∧ c ∉ after := by
  constructor
  · intro h
    induction cs generalizing before with
    | nil => cases h
    | cons x xs ih =>
        simp only [splitLast] at h
        split at h
        next front back hxs =>
          obtain ⟨rfl, rfl⟩ := Prod.mk.inj (Option.some.inj h)
          obtain ⟨hsplit, hback⟩ := ih hxs
          exact ⟨by rw [hsplit, List.cons_append], hback⟩
        next hxs =>
          split at h
          next hx =>
            obtain ⟨rfl, rfl⟩ := Prod.mk.inj (Option.some.inj h)
            exact ⟨by rw [hx, List.nil_append], splitLast_eq_none_iff.mp hxs⟩
          next => cases h
  · rintro ⟨rfl, h⟩
    exact splitLast_append_cons before h

/-! ### Behind a beginning, before an ending -/

theorem afterStart?_eq_some_iff : afterStart? start cs = some after ↔ cs = start ++ after := by
  induction start generalizing cs with
  | nil => simp [afterStart?]
  | cons p ps ih =>
      cases cs with
      | nil => simp [afterStart?]
      | cons x xs =>
          by_cases hpx : p = x
          · subst hpx
            simp [afterStart?, ih]
          · simp [afterStart?, hpx, Ne.symm hpx]

theorem beforeEnding?_eq_some_iff :
    beforeEnding? ending cs = some before ↔ cs = before ++ ending := by
  rw [beforeEnding?, Option.map_eq_some_iff]
  constructor
  · rintro ⟨rest, hrest, rfl⟩
    rw [afterStart?_eq_some_iff] at hrest
    rw [← List.reverse_inj, hrest, List.reverse_append, List.reverse_reverse]
  · rintro rfl
    refine ⟨before.reverse, afterStart?_eq_some_iff.mpr ?_, List.reverse_reverse before⟩
    rw [List.reverse_append]

theorem beforeEnding?_eq_none_iff : beforeEnding? ending cs = none ↔ ¬ ending <:+ cs := by
  rw [Option.eq_none_iff_forall_ne_some]
  constructor
  · rintro h ⟨before, hbefore⟩
    exact h before (beforeEnding?_eq_some_iff.mpr hbefore.symm)
  · intro h before hbefore
    exact h ⟨before, (beforeEnding?_eq_some_iff.mp hbefore).symm⟩

theorem suffix_append_cons_iff (hc : c ∉ ending) :
    ending <:+ before ++ c :: after ↔ ending <:+ after := by
  constructor
  · intro h
    rcases List.suffix_or_suffix_of_suffix h (List.suffix_append before (c :: after)) with h | h
    · rcases List.suffix_cons_iff.mp h with rfl | h
      · exact absurd List.mem_cons_self hc
      · exact h
    · exact absurd (h.subset List.mem_cons_self) hc
  · intro h
    exact (h.trans (List.suffix_cons c after)).trans (List.suffix_append before _)

/-! ### Before the slashes at the end -/

theorem dropTrailingSlashes_append (h : ds.getLast? ≠ some '/') (n : ℕ) :
    dropTrailingSlashes (ds ++ List.replicate n '/') = ds := by
  change List.rdropWhile (· == '/') (ds ++ List.replicate n '/') = ds
  induction n with
  | zero =>
      rw [List.replicate_zero, List.append_nil, List.rdropWhile_eq_self_iff]
      intro hne hlast
      rw [List.getLast?_eq_some_getLast hne, eq_of_beq hlast] at h
      exact h rfl
  | succ n ih =>
      rw [List.replicate_succ', ← List.append_assoc, List.rdropWhile_concat_pos _ _ _ rfl, ih]

theorem dropTrailingSlashes_eq_iff :
    dropTrailingSlashes cs = ds ↔
      ds.getLast? ≠ some '/' ∧ ∃ n, cs = ds ++ List.replicate n '/' := by
  constructor
  · rintro rfl
    refine ⟨PackagePath.dropTrailingSlashes_trimmed cs, (cs.rtakeWhile (· == '/')).length, ?_⟩
    have hslashes : ∀ x ∈ cs.rtakeWhile (· == '/'), x = '/' :=
      fun x hx => by simpa using List.mem_rtakeWhile_imp hx
    rw [← List.eq_replicate_of_mem hslashes]
    exact List.rdropWhile_append_rtakeWhile.symm
  · rintro ⟨h, n, rfl⟩
    exact dropTrailingSlashes_append h n

end BuildAnalysis
