import Mathlib.Data.Set.Function
import BuildAnalysis.Configuration.Key
import BuildAnalysis.Proofs.Text.Delimited

/-!
# What identifies a configuration

Build options are identified by their diagnostic form, and no two options share one: each part of
the form shows where it ends and tells the part of the options that it is made of. So among options
whose forms have digests of their own, keys are equal exactly if their options are, and the order of
the keys is total.
-/
namespace BuildAnalysis
open Text (Tells Avoids)

theorem PackagePath.debugText_tells : Tells PackagePath.debugText id := by
  refine ((Tells.quote.comp PackagePath.path).applied "PackageLabel").imp fun p q h => ?_
  obtain ⟨path, _, _⟩ := p
  obtain ⟨path', _, _⟩ := q
  obtain rfl : path = path' := h
  rfl

theorem TargetName.debugText_tells : Tells TargetName.debugText id := by
  refine ((Tells.quote.comp TargetName.text).applied "TargetName").imp fun p q h => ?_
  obtain ⟨text, _, _⟩ := p
  obtain ⟨text', _, _⟩ := q
  obtain rfl : text = text' := h
  rfl

theorem Label.debugText_tells : Tells Label.debugText id := by
  refine ((PackagePath.debugText_tells.comp Label.package).record₂ "TargetLabel" "pkg" "name"
    (TargetName.debugText_tells.comp Label.name)).imp fun l m h => ?_
  obtain ⟨hpackage, hname⟩ := Prod.ext_iff.mp h
  cases l
  cases m
  exact congrArg₂ Label.mk hpackage hname

theorem Label.debugText_avoids {c : Char} (hc : 'T' ≠ c) : Avoids Label.debugText c :=
  Avoids.record ⟨'T', _, rfl, hc⟩ fun l : Label =>
    [("pkg", l.package.debugText), ("name", l.name.debugText)]

theorem Pattern.debugText_tells : Tells Pattern.debugText id := by
  have hexact := Label.debugText_tells.applied "Exact"
  have hpackage := PackagePath.debugText_tells.applied "Package"
  have hrecursive := PackagePath.debugText_tells.applied "Recursive"
  intro p q r r' h
  cases p with
  | exact l =>
      cases q with
      | exact m => exact (hexact l m r r' h).imp_left (congrArg exact)
      | package => simp [debugText, Text.applied] at h
      | recursive => simp [debugText, Text.applied] at h
  | package p =>
      cases q with
      | exact => simp [debugText, Text.applied] at h
      | package q => exact (hpackage p q r r' h).imp_left (congrArg package)
      | recursive => simp [debugText, Text.applied] at h
  | recursive p =>
      cases q with
      | exact => simp [debugText, Text.applied] at h
      | package => simp [debugText, Text.applied] at h
      | recursive q => exact (hrecursive p q r r' h).imp_left (congrArg recursive)

theorem Pattern.debugText_avoids : Avoids Pattern.debugText ']' := by
  intro p
  cases p with
  | exact l => exact Avoids.applied ⟨'E', _, rfl, by decide⟩ Label.debugText l
  | package p => exact Avoids.applied ⟨'P', _, rfl, by decide⟩ PackagePath.debugText p
  | recursive p => exact Avoids.applied ⟨'R', _, rfl, by decide⟩ PackagePath.debugText p

theorem ExecutionConstraints.debugText_tells : Tells ExecutionConstraints.debugText id := by
  have hconstraints := Label.debugText_tells.bracketed (Label.debugText_avoids (by decide))
  refine ((Pattern.debugText_tells.comp pattern).record₂ "ExecConstraintRule" "filter"
    "constraints" (hconstraints.comp constraints)).imp fun c d h => ?_
  obtain ⟨hpattern, hlabels⟩ := Prod.ext_iff.mp h
  cases c
  cases d
  exact congrArg₂ ExecutionConstraints.mk hpattern hlabels

theorem ExecutionConstraints.debugText_avoids : Avoids ExecutionConstraints.debugText ']' :=
  Avoids.record ⟨'E', _, rfl, by decide⟩ fun c : ExecutionConstraints =>
    [("filter", c.pattern.debugText),
      ("constraints", Text.bracketed (c.constraints.map Label.debugText))]

theorem PlatformOptions.debugText_tells : Tells PlatformOptions.debugText id := by
  have hplatform := Label.debugText_tells.optional.comp targetPlatform
  have hconstraints := (ExecutionConstraints.debugText_tells.bracketed
    ExecutionConstraints.debugText_avoids).comp extraConstraints
  have htraced := (Pattern.debugText_tells.bracketed Pattern.debugText_avoids).comp
    tracedToolchains
  refine (hplatform.record₃ "PlatformOptions" "target_platform" "extra_execution_constraints"
    "debug_toolchain_resolution" hconstraints htraced).imp fun p q h => ?_
  obtain ⟨hfirst, hthird⟩ := Prod.ext_iff.mp h
  obtain ⟨hfirst, hsecond⟩ := Prod.ext_iff.mp hfirst
  cases p
  cases q
  exact (PlatformOptions.mk.injEq ..).mpr ⟨hfirst, hsecond, hthird⟩

namespace BuildOptions

theorem fragmentText_tells : Tells fragmentText id := by
  refine ((Tells.quote.mapping Tells.quote (Avoids.quote (by decide))).comp
    SortedMap.entries).imp fun m n h => ?_
  cases m
  cases n
  exact (SortedMap.mk.injEq ..).mpr h

theorem debugText_tells : Tells BuildOptions.debugText id := by
  have hfragments := (Tells.quote.mapping fragmentText_tells (Avoids.quote (by decide))).comp
    fun o : BuildOptions => o.fragments.entries
  have hflags := (Label.debugText_tells.mapping Tells.quote
    (Label.debugText_avoids (by decide))).comp fun o : BuildOptions => o.featureFlags.entries
  refine (hfragments.record₃ "BuildOptions" "fragments" "feature_flags" "platform" hflags
    (PlatformOptions.debugText_tells.comp platform)).imp fun o p h => ?_
  obtain ⟨hfirst, hthird⟩ := Prod.ext_iff.mp h
  obtain ⟨hfirst, hsecond⟩ := Prod.ext_iff.mp hfirst
  obtain ⟨⟨_, _⟩, ⟨_, _⟩, _⟩ := o
  obtain ⟨⟨_, _⟩, ⟨_, _⟩, _⟩ := p
  obtain rfl := hfirst
  obtain rfl := hsecond
  obtain rfl := hthird
  rfl

end BuildOptions

namespace ConfigurationKey

/-- The diagnostic forms of the options have digests of their own. -/
def DigestsApart (known : Set BuildOptions) : Prop :=
  Set.InjOn Blake3.hexDigest (BuildOptions.debugText '' known)

structure Identify (known : Set BuildOptions) : Prop where
  /-- Two keys are equal exactly if they are made of equal options. -/
  same_iff : ∀ a ∈ known, ∀ b ∈ known, same ⟨a⟩ ⟨b⟩ = true ↔ a = b
  /-- The order agrees with the equality of keys. -/
  compare_eq_iff : ∀ k l : ConfigurationKey, compare k l = .eq ↔ same k l = true
  total : ∀ k l : ConfigurationKey, (compare k l).isLE = true ∨ (compare l k).isLE = true
  trans : ∀ k l m : ConfigurationKey, (compare k l).isLE = true → (compare l m).isLE = true →
    (compare k m).isLE = true
  antisymm : ∀ a ∈ known, ∀ b ∈ known, (compare (mk a) (mk b)).isLE = true →
    (compare (mk b) (mk a)).isLE = true → a = b

theorem compare_eq (k l : ConfigurationKey) : compare k l = compare k.digest l.digest := by
  have hcompare : compare k l = compareOn digest k l := rfl
  rw [hcompare, compareOn]

/-- The diagnostic form of options tells them, and where the forms have digests of their own, so
does a key: keys are equal exactly if their options are, and their order is total. -/
theorem identify_options {known : Set BuildOptions} (apart : DigestsApart known) :
    (∀ a b : BuildOptions, a.debugText = b.debugText ↔ a = b) ∧ Identify known := by
  have hsame : ∀ a ∈ known, ∀ b ∈ known, same ⟨a⟩ ⟨b⟩ = true ↔ a = b := by
    intro a ha b hb
    constructor
    · intro h
      have hdigests : Blake3.hexDigest a.debugText = Blake3.hexDigest b.debugText := eq_of_beq h
      exact BuildOptions.debugText_tells.injective
        (apart (Set.mem_image_of_mem _ ha) (Set.mem_image_of_mem _ hb) hdigests)
    · rintro rfl
      exact beq_self_eq_true _
  have hcompare : ∀ k l : ConfigurationKey, compare k l = .eq ↔ same k l = true := by
    intro k l
    rw [compare_eq, Std.LawfulEqCmp.compare_eq_iff_eq, same, beq_iff_eq]
  refine ⟨fun a b => BuildOptions.debugText_tells.injective.eq_iff, hsame, hcompare,
    fun k l => ?_, fun k l m => Std.TransCmp.isLE_trans, fun a ha b hb hab hba => ?_⟩
  · cases hkl : compare k l with
    | lt => exact .inl rfl
    | eq => exact .inl rfl
    | gt => exact .inr (by rw [Std.OrientedCmp.lt_of_gt hkl]; rfl)
  · refine (hsame a ha b hb).mp ((hcompare _ _).mp ?_)
    exact Std.OrientedCmp.isLE_antisymm hab hba

/-- Options in which one fragment has one option. -/
def optimized : BuildOptions := BuildOptions.setOption {} "cpp" "mode" "opt"

theorem digestsApart_optimized : DigestsApart {{}, optimized} := by
  have hne : Blake3.hexDigest optimized.debugText ≠
      Blake3.hexDigest (BuildOptions.debugText {}) := by decide +kernel
  rintro _ ⟨a, ha, rfl⟩ _ ⟨b, hb, rfl⟩ h
  rcases ha with rfl | rfl <;> rcases hb with rfl | rfl
  · rfl
  · exact absurd h.symm hne
  · exact absurd h hne
  · rfl

/-- The keys of the empty options and of others are told apart. -/
theorem identify_options_optimized :
    DigestsApart {{}, optimized} ∧ same ⟨{}⟩ ⟨optimized⟩ = false := by
  refine ⟨digestsApart_optimized, Bool.eq_false_iff.mpr fun h => ?_⟩
  have hequal := ((identify_options digestsApart_optimized).2.same_iff {} (.inl rfl) optimized
    (.inr rfl)).mp h
  exact absurd hequal (by decide)

end ConfigurationKey
end BuildAnalysis
