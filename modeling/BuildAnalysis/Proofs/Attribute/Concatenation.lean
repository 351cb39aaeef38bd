import Mathlib.Data.List.Forall2
import BuildAnalysis.Attribute.Expr

/-!
# Concatenation of values

Two lists, two texts or two dictionaries can be concatenated, and the result is of the same kind.
So concatenation is associative also in whether it succeeds, and a sequence of values that is put
together from the left can be regrouped. The labels of the result are those of the values in order.
-/
namespace BuildAnalysis

namespace AttrValue

inductive Appends : AttrValue → AttrValue → AttrValue → Prop
  | lists (xs ys : List AttrValue) : Appends (list xs) (list ys) (list (xs ++ ys))
  | texts (s t : String) : Appends (text s) (text t) (text (s ++ t))
  | dicts (es fs : List (AttrValue × AttrValue)) : Appends (dict es) (dict fs) (dict (es ++ fs))

variable {a b c d v : AttrValue} {vs ws : List AttrValue}

theorem append_eq_ok_iff : a.append b = .ok c ↔ Appends a b c := by
  constructor
  · intro h
    unfold append at h
    split at h
    next xs ys =>
      obtain rfl := Except.ok.inj h
      exact .lists xs ys
    next s t =>
      obtain rfl := Except.ok.inj h
      exact .texts s t
    next es fs =>
      obtain rfl := Except.ok.inj h
      exact .dicts es fs
    next =>
      split at h
      · cases h
      · cases h
  · intro h
    cases h with
    | lists xs ys => rfl
    | texts s t => rfl
    | dicts es fs => rfl

/-- Three values can be concatenated from the left exactly if they can be from the right, and they
come to the same. -/
theorem appends_assoc :
    (∃ m, Appends a b m ∧ Appends m c d) ↔ ∃ n, Appends b c n ∧ Appends a n d := by
  constructor
  · rintro ⟨m, hab, hmc⟩
    cases hab with
    | lists xs ys =>
        cases hmc with
        | lists _ zs =>
            rw [List.append_assoc]
            exact ⟨list (ys ++ zs), .lists ys zs, .lists xs (ys ++ zs)⟩
    | texts s t =>
        cases hmc with
        | texts _ u =>
            rw [String.append_assoc]
            exact ⟨text (t ++ u), .texts t u, .texts s (t ++ u)⟩
    | dicts es fs =>
        cases hmc with
        | dicts _ gs =>
            rw [List.append_assoc]
            exact ⟨dict (fs ++ gs), .dicts fs gs, .dicts es (fs ++ gs)⟩
  · rintro ⟨n, hbc, han⟩
    cases hbc with
    | lists ys zs =>
        cases han with
        | lists xs =>
            rw [← List.append_assoc]
            exact ⟨list (xs ++ ys), .lists xs ys, .lists (xs ++ ys) zs⟩
    | texts t u =>
        cases han with
        | texts s =>
            rw [← String.append_assoc]
            exact ⟨text (s ++ t), .texts s t, .texts (s ++ t) u⟩
    | dicts fs gs =>
        cases han with
        | dicts es =>
            rw [← List.append_assoc]
            exact ⟨dict (es ++ fs), .dicts es fs, .dicts (es ++ fs) gs⟩

theorem labelsOfItems_append (xs ys : List AttrValue) :
    labelsOfItems (xs ++ ys) = labelsOfItems xs ++ labelsOfItems ys := by
  induction xs with
  | nil => rfl
  | cons x xs ih => rw [List.cons_append, labelsOfItems, labelsOfItems, ih, List.append_assoc]

theorem labelsOfEntries_append (es fs : List (AttrValue × AttrValue)) :
    labelsOfEntries (es ++ fs) = labelsOfEntries es ++ labelsOfEntries fs := by
  induction es with
  | nil => rfl
  | cons e es ih =>
      obtain ⟨k, v⟩ := e
      simp only [List.cons_append, labelsOfEntries, ih, List.append_assoc]

theorem Appends.labels_eq (h : Appends a b c) : c.labels = a.labels ++ b.labels := by
  cases h with
  | lists xs ys => exact labelsOfItems_append xs ys
  | texts => rfl
  | dicts es fs => exact labelsOfEntries_append es fs

inductive Joins : List AttrValue → AttrValue → Prop
  | single (v : AttrValue) : Joins [v] v
  | cons {a b m v : AttrValue} {vs : List AttrValue} (h : Appends a b m)
      (rest : Joins (m :: vs) v) : Joins (a :: b :: vs) v

theorem appendAll_eq_ok_iff {rs : List (Except Failure AttrValue)} :
    a.appendAll rs = .ok v ↔ ∃ vs, rs = vs.map .ok ∧ Joins (a :: vs) v := by
  constructor
  · intro h
    induction rs generalizing a with
    | nil =>
        obtain rfl := Except.ok.inj h
        exact ⟨[], rfl, .single a⟩
    | cons r rs ih =>
        simp only [appendAll] at h
        split at h
        next => cases h
        next b =>
          split at h
          next m hm =>
            obtain ⟨vs, rfl, hjoins⟩ := ih h
            exact ⟨b :: vs, rfl, .cons (append_eq_ok_iff.mp hm) hjoins⟩
          next => cases h
  · rintro ⟨vs, rfl, hjoins⟩
    induction vs generalizing a with
    | nil =>
        cases hjoins
        rfl
    | cons b vs ih =>
        cases hjoins with
        | cons hm hrest =>
            simp only [List.map_cons, appendAll, append_eq_ok_iff.mpr hm]
            exact ih hrest

/-- The first part of a sequence may be put together before the rest is appended. -/
theorem joins_append_iff : Joins (a :: (vs ++ ws)) v ↔ ∃ m, Joins (a :: vs) m ∧ Joins (m :: ws) v := by
  constructor
  · intro h
    induction vs generalizing a with
    | nil => exact ⟨a, .single a, h⟩
    | cons b vs ih =>
        cases h with
        | cons hab hrest =>
            obtain ⟨m, hm, hv⟩ := ih hrest
            exact ⟨m, .cons hab hm, hv⟩
  · rintro ⟨m, hm, hv⟩
    induction vs generalizing a with
    | nil =>
        cases hm
        exact hv
    | cons b vs ih =>
        cases hm with
        | cons hab hrest => exact .cons hab (ih hrest)

theorem joins_cons_iff : Joins (a :: b :: ws) v ↔ ∃ n, Joins (b :: ws) n ∧ Appends a n v := by
  induction ws generalizing a b v with
  | nil =>
      constructor
      · intro h
        cases h with
        | cons hab hrest =>
            cases hrest
            exact ⟨b, .single b, hab⟩
      · rintro ⟨n, hn, han⟩
        cases hn
        exact .cons han (.single v)
  | cons c ws ih =>
      constructor
      · intro h
        cases h with
        | @cons _ _ m _ _ hab hrest =>
            obtain ⟨n, hn, hmn⟩ := ih.mp hrest
            obtain ⟨p, hbn, hap⟩ := appends_assoc.mp ⟨m, hab, hmn⟩
            exact ⟨p, ih.mpr ⟨n, hn, hbn⟩, hap⟩
      · rintro ⟨p, hp, hap⟩
        obtain ⟨n, hn, hbn⟩ := ih.mp hp
        obtain ⟨m, hab, hmn⟩ := appends_assoc.mpr ⟨p, hbn, hap⟩
        exact .cons hab (ih.mpr ⟨n, hn, hmn⟩)

/-- Two sequences one after the other come to the concatenation of what each of them comes to. -/
theorem joins_regroup (hvs : vs ≠ []) (hws : ws ≠ []) :
    Joins (vs ++ ws) v ↔ ∃ m n, Joins vs m ∧ Joins ws n ∧ Appends m n v := by
  obtain ⟨a, vs, rfl⟩ := List.exists_cons_of_ne_nil hvs
  obtain ⟨b, ws, rfl⟩ := List.exists_cons_of_ne_nil hws
  rw [List.cons_append, joins_append_iff]
  simp only [joins_cons_iff, exists_and_left]

theorem Joins.labels_eq (h : Joins vs v) : v.labels = vs.flatMap labels := by
  induction h with
  | single v => exact (List.append_nil v.labels).symm
  | cons h _ ih => rw [ih, List.flatMap_cons, h.labels_eq, List.append_assoc]; rfl

end AttrValue

namespace AttrExpr

open AttrValue

variable {ctx : ConditionContext} {es xs ys : List AttrExpr} {v : AttrValue}

/-- The values of the expressions, one by one. -/
def Values (ctx : ConditionContext) (es : List AttrExpr) (vs : List AttrValue) : Prop :=
  List.Forall₂ (fun e v => configure ctx e = .ok v) es vs

theorem configureItems_eq_map_ok_iff {vs : List AttrValue} :
    configureItems ctx es = vs.map .ok ↔ Values ctx es vs := by
  unfold Values
  induction es generalizing vs with
  | nil =>
      cases vs with
      | nil => simp [configureItems]
      | cons v vs => simp [configureItems]
  | cons e es ih =>
      cases vs with
      | nil => simp [configureItems]
      | cons v vs => rw [configureItems, List.map_cons, List.cons_eq_cons, ih, List.forall₂_cons]

/-- A concatenation has a value exactly if its items have values that can be put together. -/
theorem configure_concat_eq_ok_iff :
    configure ctx (concat es) = .ok v ↔ ∃ vs, Values ctx es vs ∧ Joins vs v := by
  simp only [configure, ← configureItems_eq_map_ok_iff]
  constructor
  · intro h
    split at h
    next => cases h
    next => cases h
    next a rs hitems =>
      obtain ⟨vs, rfl, hjoins⟩ := appendAll_eq_ok_iff.mp h
      exact ⟨a :: vs, hitems, hjoins⟩
  · rintro ⟨vs, hitems, hjoins⟩
    cases vs with
    | nil => cases hjoins
    | cons a vs =>
        rw [hitems]
        exact appendAll_eq_ok_iff.mpr ⟨vs, rfl, hjoins⟩

theorem configure_concat_singleton (e : AttrExpr) :
    configure ctx (concat [e]) = configure ctx e := by
  simp only [configure, configureItems]
  cases configure ctx e with
  | error f => rfl
  | ok v => rfl

theorem values_append_iff {vs : List AttrValue} :
    Values ctx (xs ++ ys) vs ↔ ∃ us ws, Values ctx xs us ∧ Values ctx ys ws ∧ vs = us ++ ws := by
  constructor
  · intro h
    refine ⟨vs.take xs.length, vs.drop xs.length, ?_, ?_, (List.take_append_drop ..).symm⟩
    · exact (List.forall₂_take_append vs xs ys h.flip).flip
    · exact (List.forall₂_drop_append vs xs ys h.flip).flip
  · rintro ⟨us, ws, hus, hws, rfl⟩
    exact List.rel_append hus hws

theorem Values.ne_nil {vs : List AttrValue} (h : Values ctx es vs) (hes : es ≠ []) : vs ≠ [] := by
  rintro rfl
  cases h
  exact hes rfl

theorem configure_concat_append_iff (hxs : xs ≠ []) (hys : ys ≠ []) :
    configure ctx (concat (xs ++ ys)) = .ok v ↔
      ∃ m n, configure ctx (concat xs) = .ok m ∧ configure ctx (concat ys) = .ok n ∧
        Appends m n v := by
  simp only [configure_concat_eq_ok_iff, values_append_iff]
  constructor
  · rintro ⟨_, ⟨us, ws, hus, hws, rfl⟩, hjoins⟩
    obtain ⟨m, n, hm, hn, hmn⟩ := (joins_regroup (hus.ne_nil hxs) (hws.ne_nil hys)).mp hjoins
    exact ⟨m, n, ⟨us, hus, hm⟩, ⟨ws, hws, hn⟩, hmn⟩
  · rintro ⟨m, n, ⟨us, hus, hm⟩, ⟨ws, hws, hn⟩, hmn⟩
    refine ⟨us ++ ws, ⟨us, ws, hus, hws, rfl⟩, ?_⟩
    exact (joins_regroup (hus.ne_nil hxs) (hws.ne_nil hys)).mpr ⟨m, n, hm, hn, hmn⟩

/-- A concatenation of two concatenations has a value exactly if the concatenation of all their
items has, and it is the same. The labels of the value are those of the items in order. -/
theorem concat_regroup_iff (ctx : ConditionContext) {xs ys : List AttrExpr} (hxs : xs ≠ [])
    (hys : ys ≠ []) (v : AttrValue) :
    (configure ctx (concat (xs ++ ys)) = .ok v ↔
        configure ctx (concat [concat xs, concat ys]) = .ok v) ∧
      (configure ctx (concat (xs ++ ys)) = .ok v →
        ∃ vs, Values ctx (xs ++ ys) vs ∧ v.labels = vs.flatMap AttrValue.labels) := by
  constructor
  · have hx : [concat xs] ≠ [] := List.cons_ne_nil _ _
    have hy : [concat ys] ≠ [] := List.cons_ne_nil _ _
    rw [configure_concat_append_iff hxs hys, ← List.singleton_append,
      configure_concat_append_iff hx hy]
    simp only [configure_concat_singleton]
  · intro h
    obtain ⟨vs, hvs, hjoins⟩ := configure_concat_eq_ok_iff.mp h
    exact ⟨vs, hvs, hjoins.labels_eq⟩

end AttrExpr

namespace ConcatenationSample

open AttrExpr

/-! The dependencies of a target, some of which depend on a condition that is met. -/

def util : Label := ⟨⟨"base", rfl, by decide⟩, ⟨"util", rfl, by decide⟩⟩

def extra : Label := ⟨util.package, ⟨"extra", rfl, by decide⟩⟩

def condition : Label := ⟨util.package, ⟨"condition", rfl, by decide⟩⟩

def context : ConditionContext := .ofSettings (.ofOptions {}) [(condition, {})]

def deps : List AttrExpr :=
  [labelList [util], .select [(condition, labelList [extra])] Option.none]

def moreDeps : List AttrExpr := [.list [], labelList [util]]

theorem concat_regroup_iff_deps :
    deps ≠ [] ∧ moreDeps ≠ [] ∧
      configure context (concat [concat deps, concat moreDeps]) =
        .ok (.list [.label util, .label extra, .label util]) ∧
      ∃ vs, Values context (deps ++ moreDeps) vs ∧
        [util, extra, util] = vs.flatMap AttrValue.labels := by
  have hdeps : deps ≠ [] := List.cons_ne_nil _ _
  have hmore : moreDeps ≠ [] := List.cons_ne_nil _ _
  have hflat : configure context (concat (deps ++ moreDeps)) =
      .ok (.list [.label util, .label extra, .label util]) := rfl
  obtain ⟨hvalue, hlabels⟩ := concat_regroup_iff context hdeps hmore
    (.list [.label util, .label extra, .label util])
  exact ⟨hdeps, hmore, hvalue.mp hflat, hlabels hflat⟩

end ConcatenationSample
end BuildAnalysis
