import BuildAnalysis.Proofs.Attribute.Unconfigured
import BuildAnalysis.Proofs.Collection.Listing

/-!
# Collecting labels and conditions

The labels of an expression are collected on a walk that hands a listing on from part to part. No
part is left out, whatever branch a choice would take, so what is collected are exactly the labels
that stand anywhere in the expression. The listing only grows at its end, and nothing comes into it
twice. Conditions are collected in the same way.
-/
namespace BuildAnalysis

namespace Listing

variable {α : Type} {p q : α → Prop} {known out more : List α}

structure ExtendedBy (known : List α) (p : α → Prop) (out : List α) : Prop where
  order : known <+: out
  mem_iff : ∀ x, x ∈ out ↔ x ∈ known ∨ p x
  nodup : known.Nodup → out.Nodup

namespace ExtendedBy

theorem congr (h : ExtendedBy known p out) (hpq : ∀ x, p x ↔ q x) : ExtendedBy known q out :=
  ⟨h.order, fun x => (h.mem_iff x).trans (or_congr_right (hpq x)), h.nodup⟩

theorem refl (known : List α) : ExtendedBy known (fun _ => False) known :=
  ⟨List.prefix_refl known, fun _ => by rw [or_false], id⟩

theorem trans (h : ExtendedBy known p out) (h' : ExtendedBy out q more) :
    ExtendedBy known (fun x => p x ∨ q x) more where
  order := h.order.trans h'.order
  mem_iff x := by rw [h'.mem_iff, h.mem_iff, or_assoc]
  nodup hknown := h'.nodup (h.nodup hknown)

end ExtendedBy

theorem extendedBy_addAll [DecidableEq α] {xs : List α} (h : ∀ x, x ∈ xs ↔ p x) :
    ExtendedBy known p (addAll known xs) where
  order := prefix_addAll known xs
  mem_iff x := mem_addAll.trans (or_congr_right (h x))
  nodup hknown := nodup_addAll hknown xs

end Listing

namespace AttrExpr

open Listing (ExtendedBy)

section Walk

variable (known : List Label)

theorem labelsOfItems_eq_flatMap (es : List AttrExpr) :
    labelsOfItems es = es.flatMap labelOccurrences := by
  induction es with
  | nil => rfl
  | cons e es ih => rw [labelsOfItems, ih, List.flatMap_cons]

theorem labelsOfEntries_eq_flatMap (es : List (AttrExpr × AttrExpr)) :
    labelsOfEntries es = es.flatMap fun e => e.1.labelOccurrences ++ e.2.labelOccurrences := by
  induction es with
  | nil => rfl
  | cons e es ih => rw [labelsOfEntries, ih, List.flatMap_cons]

theorem labelsOfBranches_eq_flatMap (bs : List (Label × AttrExpr)) :
    labelsOfBranches bs = bs.flatMap fun b => b.2.labelOccurrences := by
  induction bs with
  | nil => rfl
  | cons b bs ih => rw [labelsOfBranches, ih, List.flatMap_cons]

theorem allLabels_list (items : List AttrExpr) :
    (list items).allLabels known = items.foldl (fun ls e => e.allLabels ls) known := by
  rw [allLabels, labelOccurrences, labelsOfItems_eq_flatMap, Listing.addAll_flatMap]
  rfl

theorem allLabels_concat (items : List AttrExpr) :
    (concat items).allLabels known = items.foldl (fun ls e => e.allLabels ls) known :=
  allLabels_list known items

theorem allLabels_dict (entries : List (AttrExpr × AttrExpr)) :
    (dict entries).allLabels known =
      entries.foldl (fun ls e => e.2.allLabels (e.1.allLabels ls)) known := by
  rw [allLabels, labelOccurrences, labelsOfEntries_eq_flatMap, Listing.addAll_flatMap]
  simp only [Listing.addAll_append]
  rfl

/-- The branches come first, without their conditions, and then the fallback. -/
theorem allLabels_select (branches : List (Label × AttrExpr)) (fallback : Option AttrExpr) :
    (select branches fallback).allLabels known =
      fallback.toList.foldl (fun ls e => e.allLabels ls)
        (branches.foldl (fun ls b => b.2.allLabels ls) known) := by
  rw [allLabels, labelOccurrences, labelsOfBranches_eq_flatMap, Listing.addAll_append,
    Listing.addAll_flatMap]
  cases fallback <;> rfl

end Walk

mutual

/-- Collecting the labels of an expression adds exactly those that stand somewhere in it. -/
theorem extendedBy_allLabels : ∀ (e : AttrExpr) (known : List Label),
    ExtendedBy known (fun l => label l ∈ e.parts) (e.allLabels known)
  | none, known => (ExtendedBy.refl known).congr fun l => by simp [parts]
  | bool _, known => (ExtendedBy.refl known).congr fun l => by simp [parts]
  | text _, known => (ExtendedBy.refl known).congr fun l => by simp [parts]
  | label _, known => Listing.extendedBy_addAll fun l => by simp [labelOccurrences, parts]
  | list items, known => by
      rw [allLabels_list]
      exact (extendedBy_items items known).congr fun l => by simp [parts]
  | dict entries, known => by
      rw [allLabels_dict]
      exact (extendedBy_entries entries known).congr fun l => by simp [parts]
  | select branches fallback, known => by
      rw [allLabels_select]
      exact ((extendedBy_branches branches known).trans (extendedBy_fallback fallback _)).congr
        fun l => by simp [parts]
  | concat items, known => by
      rw [allLabels_concat]
      exact (extendedBy_items items known).congr fun l => by simp [parts]

theorem extendedBy_items : ∀ (es : List AttrExpr) (known : List Label),
    ExtendedBy known (fun l => label l ∈ partsOfItems es)
      (es.foldl (fun ls e => e.allLabels ls) known)
  | [], known => (ExtendedBy.refl known).congr fun l => by simp [partsOfItems]
  | e :: es, known =>
      ((extendedBy_allLabels e known).trans (extendedBy_items es _)).congr
        fun l => by rw [partsOfItems, List.mem_append]

theorem extendedBy_entries : ∀ (es : List (AttrExpr × AttrExpr)) (known : List Label),
    ExtendedBy known (fun l => label l ∈ partsOfEntries es)
      (es.foldl (fun ls e => e.2.allLabels (e.1.allLabels ls)) known)
  | [], known => (ExtendedBy.refl known).congr fun l => by simp [partsOfEntries]
  | (k, v) :: es, known =>
      (((extendedBy_allLabels k known).trans (extendedBy_allLabels v _)).trans
        (extendedBy_entries es _)).congr fun l => by simp [partsOfEntries, or_assoc]

theorem extendedBy_branches : ∀ (bs : List (Label × AttrExpr)) (known : List Label),
    ExtendedBy known (fun l => label l ∈ partsOfBranches bs)
      (bs.foldl (fun ls b => b.2.allLabels ls) known)
  | [], known => (ExtendedBy.refl known).congr fun l => by simp [partsOfBranches]
  | (_, v) :: bs, known =>
      ((extendedBy_allLabels v known).trans (extendedBy_branches bs _)).congr
        fun l => by rw [partsOfBranches, List.mem_append]

theorem extendedBy_fallback : ∀ (f : Option AttrExpr) (known : List Label),
    ExtendedBy known (fun l => label l ∈ partsOfFallback f)
      (f.toList.foldl (fun ls e => e.allLabels ls) known)
  | Option.none, known => (ExtendedBy.refl known).congr fun l => by simp [partsOfFallback]
  | some e, known => extendedBy_allLabels e known

end

/-- Collecting its conditions adds exactly those of the choices in it. -/
theorem extendedBy_selectKeys (e : AttrExpr) (known : List Label) :
    ExtendedBy known (fun l => ∃ x ∈ e.parts, x.Asks l) (e.selectKeys known) :=
  Listing.extendedBy_addAll fun _ => mem_keyOccurrences_iff e

end AttrExpr
end BuildAnalysis
