import Mathlib.Data.List.Basic
import BuildAnalysis.Configuration.Transition
import BuildAnalysis.Proofs.Collection.Listing
import BuildAnalysis.Proofs.Label.Spelling
import BuildAnalysis.Proofs.Text.Delimited

/-!
# Transitions that are compared by their ids

References to transitions are equal if their ids are, and the id of a transition is put together
from its parts without any escapes. So it tells the kind of a transition and the label of an
execution platform, but not always the parts of a patch or a split: those are told apart as long as
no part contains what separates it from the next.
-/
namespace BuildAnalysis

structure Assignment where
  fragment : String
  option : String
  value : String
  deriving DecidableEq

/-- Sets the option in build options. -/
def Assignment.set (a : Assignment) (o : BuildOptions) : BuildOptions :=
  o.setOption a.fragment a.option a.value

theorem Assignment.set_injective : Function.Injective fun a : Assignment => a.set {} := by
  intro a b h
  have hfragments : ([(a.fragment, (∅ : SortedMap String String).insert a.option a.value)] :
      List (String × SortedMap String String)) =
        [(b.fragment, (∅ : SortedMap String String).insert b.option b.value)] :=
    congrArg (fun o : BuildOptions => o.fragments.entries) h
  obtain ⟨hfragment, hoptions⟩ := Prod.ext_iff.mp (List.singleton_inj.mp hfragments)
  have hentries : [(a.option, a.value)] = [(b.option, b.value)] :=
    congrArg SortedMap.entries hoptions
  obtain ⟨hoption, hvalue⟩ := Prod.ext_iff.mp (List.singleton_inj.mp hentries)
  cases a
  cases b
  exact (Assignment.mk.injEq ..).mpr ⟨hfragment, hoption, hvalue⟩

namespace Transition

/-- What a patch sets, or a split for one of its keys each. -/
def assignments : Transition → List Assignment
  | patch fragment option value => [⟨fragment, option, value⟩]
  | split fragment option values =>
    (Listing.distinct values).map fun value => ⟨fragment, option, value⟩
  | _ => []

/-- No part of the transition contains what separates it from the next part in the id. -/
def isLegible : Transition → Bool
  | patch fragment option _ => !fragment.toList.contains '.' && !option.toList.contains '='
  | split fragment option values =>
    !fragment.toList.contains '.' && !option.toList.contains '=' &&
      values.all (fun v => !v.toList.contains ',') && values != [""]
  | _ => true

theorem apply_patch (fragment option value : String) (o : BuildOptions) :
    (patch fragment option value).apply o =
      .ok (.patched (Assignment.set ⟨fragment, option, value⟩ o)) := rfl

theorem apply_split (fragment option : String) (values : List String) (o : BuildOptions) :
    (split fragment option values).apply o =
      .ok (.split
        ((split fragment option values).assignments.map fun a => (a.value, a.set o))) := by
  rw [apply, Listing.ofEntries_map, assignments, List.map_map]
  rfl

/-- What equal ids say of two transitions: they are of one kind, and so are the texts that the
parts of a patch or of a split make up. -/
inductive Alike : Transition → Transition → Prop
  | refl (t : Transition) : Alike t t
  | patch {f o v f' o' v' : String}
      (h : f.toList ++ '.' :: (o.toList ++ '=' :: v.toList) =
        f'.toList ++ '.' :: (o'.toList ++ '=' :: v'.toList)) :
      Alike (patch f o v) (patch f' o' v')
  | split {f o f' o' : String} {vs vs' : List String}
      (h : f.toList ++ '.' :: (o.toList ++ '=' :: (",".intercalate vs).toList) =
        f'.toList ++ '.' :: (o'.toList ++ '=' :: (",".intercalate vs').toList)) :
      Alike (split f o vs) (split f' o' vs')

theorem alike_of_same {s t : Transition} (hs : s.isBuiltin = true) (ht : t.isBuiltin = true)
    (h : s.same t = true) : Alike s t := by
  have hid : s.id.toList = t.id.toList := congrArg String.toList (eq_of_beq h)
  -- The first two letters of an id tell the kind.
  cases s with
  | failing => cases hs
  | keep =>
      cases t with
      | failing => cases ht
      | keep => exact .refl _
      | _ => simp [Transition.id, toString] at hid
  | drop =>
      cases t with
      | failing => cases ht
      | drop => exact .refl _
      | _ => simp [Transition.id, toString] at hid
  | dropFlags =>
      cases t with
      | failing => cases ht
      | dropFlags => exact .refl _
      | _ => simp [Transition.id, toString] at hid
  | patch f o v =>
      cases t with
      | failing => cases ht
      | patch f' o' v' =>
          refine .patch ((List.append_left_inj [')']).mp ?_)
          simpa [Transition.id, toString] using hid
      | _ => simp [Transition.id, toString] at hid
  | split f o vs =>
      cases t with
      | failing => cases ht
      | split f' o' vs' =>
          refine .split ((List.append_left_inj [')']).mp ?_)
          simpa [Transition.id, toString] using hid
      | _ => simp [Transition.id, toString] at hid
  | execution l =>
      cases t with
      | failing => cases ht
      | execution m =>
          have htexts : toString l = toString m := by
            refine String.toList_inj.mp ((List.append_left_inj [')']).mp ?_)
            simpa [Transition.id, toString] using hid
          rw [Label.toString_injective htexts]
          exact .refl _
      | _ => simp [Transition.id, toString] at hid

/-- Values that are joined by commas are told apart if they contain none, but a single empty value
is taken for no value. -/
theorem values_of_joined {vs vs' : List String} (hcommas : ∀ v ∈ vs, ',' ∉ v.toList)
    (hcommas' : ∀ v ∈ vs', ',' ∉ v.toList) (hne : vs ≠ [""]) (hne' : vs' ≠ [""])
    (h : (",".intercalate vs).toList = (",".intercalate vs').toList) : vs = vs' := by
  have hsplit : ∀ us : List String, (∀ v ∈ us, ',' ∉ v.toList) →
      (",".intercalate us).toList.splitOn ',' =
        (if us = [] then [""] else us).map String.toList := by
    intro us hus
    cases us with
    | nil => rfl
    | cons u us =>
        rw [String.toList_intercalate, if_neg (List.cons_ne_nil u us)]
        exact List.splitOn_intercalate ',' (by simpa using hus) (by simp)
  have hmapped := congrArg (List.splitOn ',') h
  rw [hsplit vs hcommas, hsplit vs' hcommas'] at hmapped
  have hread := List.map_injective_iff.mpr (fun _ _ => String.toList_inj.mp) hmapped
  split at hread <;> split at hread
  next hnil hnil' => rw [hnil, hnil']
  next => exact absurd hread.symm hne'
  next => exact absurd hread hne
  next => exact hread

/-- Ids without clashing separators tell the transition. -/
theorem Alike.eq_of_legible {s t : Transition} (h : Alike s t) (hs : s.isLegible = true)
    (ht : t.isLegible = true) : s = t := by
  cases h with
  | refl => rfl
  | patch h =>
      simp only [isLegible, Bool.and_eq_true, Bool.not_eq_true', List.contains_eq_mem,
        decide_eq_false_iff_not] at hs ht
      obtain ⟨hfragment, hrest⟩ := Text.eq_of_append_cons hs.1 ht.1 h
      obtain ⟨hoption, hvalue⟩ := Text.eq_of_append_cons hs.2 ht.2 hrest
      rw [String.toList_inj.mp hfragment, String.toList_inj.mp hoption, String.toList_inj.mp hvalue]
  | split h =>
      simp only [isLegible, Bool.and_eq_true, Bool.not_eq_true', List.contains_eq_mem,
        decide_eq_false_iff_not, List.all_eq_true, bne_iff_ne, and_assoc] at hs ht
      obtain ⟨hfragment, hrest⟩ := Text.eq_of_append_cons hs.1 ht.1 h
      obtain ⟨hoption, hjoined⟩ := Text.eq_of_append_cons hs.2.1 ht.2.1 hrest
      have hvalues := values_of_joined hs.2.2.1 ht.2.2.1 hs.2.2.2 ht.2.2.2 hjoined
      rw [String.toList_inj.mp hfragment, String.toList_inj.mp hoption, hvalues]

/-- Transitions with equal ids behave alike exactly if they set the same. -/
theorem Alike.apply_eq_iff {s t : Transition} (h : Alike s t) :
    (∀ o, s.apply o = t.apply o) ↔ s.assignments = t.assignments := by
  cases h with
  | refl => exact iff_of_true (fun _ => rfl) rfl
  | patch =>
      constructor
      · intro heq
        have hempty := heq {}
        rw [apply_patch, apply_patch] at hempty
        have hset := Outcome.patched.inj (Except.ok.inj hempty)
        exact congrArg (fun a => [a]) (Assignment.set_injective hset)
      · intro heq options
        rw [apply_patch, apply_patch, List.singleton_inj.mp heq]
  | split =>
      constructor
      · intro heq
        have hempty := heq {}
        rw [apply_split, apply_split] at hempty
        have hmapped := Outcome.split.inj (Except.ok.inj hempty)
        refine List.map_injective_iff.mpr (fun a b hab => ?_) hmapped
        exact Assignment.set_injective (congrArg Prod.snd hab)
      · intro heq options
        rw [apply_split, apply_split, heq]

/-- Of the transitions that come with this library, those with equal ids are interchangeable exactly
if they set the same options to the same values, and if both are legible, they are one and the
same. -/
theorem same_interchangeable_iff {s t : Transition} (hs : s.isBuiltin = true)
    (ht : t.isBuiltin = true) (h : s.same t = true) :
    ((∀ o, s.apply o = t.apply o) ↔ s.assignments = t.assignments) ∧
      (s.isLegible = true → t.isLegible = true → s = t) := by
  have halike := alike_of_same hs ht h
  exact ⟨halike.apply_eq_iff, halike.eq_of_legible⟩

/-- Splits without values are interchangeable whatever options they are about. -/
theorem same_interchangeable_iff_empty :
    (split "a.b" "c" []).same (split "a" "b.c" []) = true ∧
      ∀ o, (split "a.b" "c" []).apply o = (split "a" "b.c" []).apply o := by
  have hsame : (split "a.b" "c" []).same (split "a" "b.c" []) = true := by decide +kernel
  exact ⟨hsame, (same_interchangeable_iff rfl rfl hsame).1.mpr rfl⟩

/-- A split for one value with a comma has the id of a split for two values. -/
theorem same_not_interchangeable :
    (split "cpp" "ldflags" ["-Wl,-s"]).isBuiltin = true ∧
      (split "cpp" "ldflags" ["-Wl", "-s"]).isBuiltin = true ∧
      (split "cpp" "ldflags" ["-Wl,-s"]).same (split "cpp" "ldflags" ["-Wl", "-s"]) = true ∧
      (split "cpp" "ldflags" ["-Wl,-s"]).apply {} ≠
        (split "cpp" "ldflags" ["-Wl", "-s"]).apply {} := by
  refine ⟨rfl, rfl, by decide +kernel, fun h => ?_⟩
  have hkeys := congrArg (List.map Prod.fst) (Outcome.split.inj (Except.ok.inj h))
  exact absurd hkeys (by decide)

end Transition
end BuildAnalysis
