import BuildAnalysis.Configuration.Settings
import BuildAnalysis.Proofs.Collection.Sorted

/-!
# Refinement of settings

Settings refine others exactly if they expect every value that the others expect and one more.
Refining is a strict order: settings never refine themselves, and what refines settings refines all
that these refine. Options that meet settings meet all that the settings refine.
-/
namespace BuildAnalysis.Settings

section Includes

variable {α : Type} [Ord α] [Std.LawfulEqOrd α] [DecidableEq α] {l m n : SortedMap α String}

theorem all_entries_iff {found : α → Option String} :
    n.entries.all (fun e => found e.1 == some e.2) = true ↔
      ∀ k v, n.get? k = some v → found k = some v := by
  rw [List.all_eq_true]
  constructor
  · intro h k v hkv
    exact beq_iff_eq.mp (h (k, v) (SortedMap.get?_eq_some_iff.mp hkv))
  · intro h e he
    exact beq_iff_eq.mpr (h e.1 e.2 (SortedMap.get?_eq_some_iff.mpr he))

theorem includes_iff :
    includes m n = true ↔ ∀ k v, n.get? k = some v → m.get? k = some v := all_entries_iff

/-- A map with every entry of another is no smaller, so it does not matter whether the sizes are
compared first. -/
theorem includes_eq_size_le_and :
    includes m n = (decide (n.size ≤ m.size) && includes m n) := by
  cases h : includes m n with
  | false => rw [Bool.and_false]
  | true => rw [Bool.and_true, decide_eq_true (SortedMap.size_le (includes_iff.mp h))]

theorem includes_trans (hlm : includes l m = true) (hmn : includes m n = true) :
    includes l n = true :=
  includes_iff.mpr fun k v hkv => includes_iff.mp hlm k v (includes_iff.mp hmn k v hkv)

end Includes

variable {s t u : Settings}

theorem refines_iff :
    s.refines t = true ↔
      t.size < s.size ∧ includes s.values t.values = true ∧
        includes s.flagValues t.flagValues = true := by
  rw [refines, Bool.and_eq_true, Bool.and_eq_true, decide_eq_true_iff, and_assoc]

structure Exceeds (s t : Settings) : Prop where
  values : ∀ k v, t.values.get? k = some v → s.values.get? k = some v
  flagValues : ∀ k v, t.flagValues.get? k = some v → s.flagValues.get? k = some v
  more : (∃ k v, s.values.get? k = some v ∧ t.values.get? k ≠ some v) ∨
    ∃ k v, s.flagValues.get? k = some v ∧ t.flagValues.get? k ≠ some v

/-- Comparing the numbers of values, beside inclusion, tells whether there is one more. -/
theorem refines_iff_exceeds : s.refines t = true ↔ s.Exceeds t := by
  rw [refines_iff, includes_iff, includes_iff]
  constructor
  · rintro ⟨hsize, hvalues, hflags⟩
    refine ⟨hvalues, hflags, ?_⟩
    rw [← SortedMap.size_lt_iff hvalues, ← SortedMap.size_lt_iff hflags]
    have hle := SortedMap.size_le hvalues
    have hle' := SortedMap.size_le hflags
    unfold size at hsize
    omega
  · rintro ⟨hvalues, hflags, hmore⟩
    refine ⟨?_, hvalues, hflags⟩
    rw [← SortedMap.size_lt_iff hvalues, ← SortedMap.size_lt_iff hflags] at hmore
    have hle := SortedMap.size_le hvalues
    have hle' := SortedMap.size_le hflags
    unfold size
    omega

theorem refines_trans (hst : s.refines t = true) (htu : t.refines u = true) :
    s.refines u = true := by
  obtain ⟨hsize, hvalues, hflags⟩ := refines_iff.mp hst
  obtain ⟨hsize', hvalues', hflags'⟩ := refines_iff.mp htu
  exact refines_iff.mpr
    ⟨Nat.lt_trans hsize' hsize, includes_trans hvalues hvalues', includes_trans hflags hflags'⟩

theorem not_refines_self (s : Settings) : ¬ s.refines s = true :=
  fun h => Nat.lt_irrefl _ (refines_iff.mp h).1

theorem not_refines_of_refines (hst : s.refines t = true) : ¬ t.refines s = true :=
  fun hts => not_refines_self s (refines_trans hst hts)

theorem isMet_iff {o : BuildOptions} :
    s.isMet o = true ↔ (∀ k v, s.values.get? k = some v → o.setting? k = some v) ∧
      ∀ k v, s.flagValues.get? k = some v → o.flag? k = some v := by
  rw [isMet, Bool.and_eq_true, all_entries_iff, all_entries_iff]

theorem Exceeds.isMet {o : BuildOptions} (h : s.Exceeds t) (met : s.isMet o = true) :
    t.isMet o = true := by
  obtain ⟨hvalues, hflags⟩ := isMet_iff.mp met
  exact isMet_iff.mpr
    ⟨fun k v hkv => hvalues k v (h.values k v hkv), fun k v hkv => hflags k v (h.flagValues k v hkv)⟩

/-- Settings refine others exactly if they expect every value that the others expect and one more.
So no settings refine themselves, no two refine each other, and what refines settings refines all
that these refine; and options that meet settings meet all that the settings refine. -/
theorem refines_strict_inclusion (s t u : Settings) :
    (s.refines t = true ↔ s.Exceeds t) ∧
      ¬ s.refines s = true ∧
      (s.refines t = true → ¬ t.refines s = true) ∧
      (s.refines t = true → t.refines u = true → s.refines u = true) ∧
      ∀ o : BuildOptions, s.refines t = true → s.isMet o = true → t.isMet o = true := by
  refine ⟨refines_iff_exceeds, not_refines_self s, not_refines_of_refines, refines_trans, ?_⟩
  intro o hst hmet
  exact (refines_iff_exceeds.mp hst).isMet hmet

namespace RefinementSample

def flag : Label := ⟨⟨"features", rfl, by decide⟩, ⟨"static", rfl, by decide⟩⟩

def optimized : Settings := { values := .ofList [("cpp.mode", "opt")] }

/-- Expects a flag as well. -/
def static : Settings := { optimized with flagValues := .ofList [(flag, "yes")] }

/-- Expects one more option. -/
def embedded : Settings :=
  { static with values := .ofList [("cpp.mode", "opt"), ("cpu.arch", "arm")] }

def options : BuildOptions :=
  ((({} : BuildOptions).setOption "cpp" "mode" "opt").setOption "cpu" "arch" "arm").setFlag flag
    "yes"

theorem refines_strict_inclusion_embedded :
    embedded.refines static = true ∧ static.refines optimized = true ∧
      embedded.isMet options = true ∧ embedded.Exceeds static ∧
      embedded.refines optimized = true ∧ ¬ static.refines embedded = true ∧
      static.isMet options = true := by
  have hembedded : embedded.refines static = true := by decide +kernel
  have hstatic : static.refines optimized = true := by decide +kernel
  have hmet : embedded.isMet options = true := by decide +kernel
  obtain ⟨hiff, -, hasymm, htrans, hmeets⟩ :=
    refines_strict_inclusion embedded static optimized
  exact ⟨hembedded, hstatic, hmet, hiff.mp hembedded, htrans hembedded hstatic,
    hasymm hembedded, hmeets options hembedded hmet⟩

end RefinementSample
end BuildAnalysis.Settings
