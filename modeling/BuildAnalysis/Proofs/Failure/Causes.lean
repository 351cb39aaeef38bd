import BuildAnalysis.Failure.Cause
import BuildAnalysis.Proofs.Collection.Listing

/-!
# Sets of causes

A set of causes has each cause once, in the order in which they were first seen. Its most important
tag is updated whenever a cause arrives, known or not, and is always that of the cause that ranks
first. So two sets that were put together from the same causes differ in nothing but the order of
these, whatever order the causes came in and however many sets they went through.
-/
namespace BuildAnalysis.Causes

/-! ### Members -/

instance : Membership Cause Causes := ⟨fun cs c => c ∈ cs.items⟩

theorem mem_def {cs : Causes} {c : Cause} : c ∈ cs ↔ c ∈ cs.items := Iff.rfl

@[simp] theorem mem_add {cs : Causes} {c x : Cause} : x ∈ cs.add c ↔ x ∈ cs ∨ x = c := by
  simp only [mem_def, add]
  split
  next h =>
    refine ⟨.inl, fun hx => hx.elim id ?_⟩
    rintro rfl
    exact h
  next => simp

@[simp] theorem mem_addAll {cs other : Causes} {x : Cause} :
    x ∈ cs.addAll other ↔ x ∈ cs ∨ x ∈ other := by
  have hfold : ∀ (items : List Cause) (cs : Causes),
      x ∈ items.foldl add cs ↔ x ∈ cs ∨ x ∈ items := by
    intro items
    induction items with
    | nil => simp
    | cons c items ih => simp [ih, or_assoc]
  exact hfold other.items cs

theorem mem_foldl_addAll {fs : List TargetFailure} {cs : Causes} {x : Cause} :
    x ∈ fs.foldl (fun cs f => cs.addAll f.causes) cs ↔ x ∈ cs ∨ ∃ f ∈ fs, x ∈ f.causes := by
  induction fs generalizing cs with
  | nil => simp
  | cons f fs ih => simp [ih, or_assoc]

theorem isEmpty_eq_false {cs : Causes} {c : Cause} (h : c ∈ cs) : cs.isEmpty = false := by
  cases hitems : cs.items with
  | nil =>
      rw [mem_def, hitems] at h
      cases h
  | cons => rw [isEmpty, hitems]; rfl

theorem isEmpty_add (cs : Causes) (c : Cause) : (cs.add c).isEmpty = false :=
  isEmpty_eq_false (mem_add.mpr (.inr rfl))

theorem isEmpty_single (c : Cause) : (single c).isEmpty = false := isEmpty_add ∅ c

theorem exists_mem {cs : Causes} (h : cs.isEmpty = false) : ∃ c, c ∈ cs := by
  obtain ⟨c, hc⟩ := List.exists_mem_of_ne_nil cs.items fun hnil => by
    rw [isEmpty, hnil] at h
    cases h
  exact ⟨c, hc⟩

theorem mem_foldl_add {α : Type} (g : α → Cause) {xs : List α} {cs : Causes} {c : Cause} :
    c ∈ xs.foldl (fun cs x => cs.add (g x)) cs ↔ c ∈ cs ∨ ∃ x ∈ xs, c = g x := by
  induction xs generalizing cs with
  | nil => simp
  | cons x xs ih => simp [ih, or_assoc]

theorem isEmpty_foldl_add {α : Type} (g : α → Cause) {xs : List α} (h : xs.isEmpty = false)
    (cs : Causes) : (xs.foldl (fun cs x => cs.add (g x)) cs).isEmpty = false := by
  obtain ⟨x, hx⟩ := List.exists_mem_of_ne_nil xs (List.isEmpty_eq_false_iff.mp h)
  exact isEmpty_eq_false ((mem_foldl_add g).mpr (.inr ⟨x, hx, rfl⟩))

/-! ### Order of arrival -/

theorem items_add (cs : Causes) (c : Cause) : (cs.add c).items = Listing.add cs.items c := by
  unfold add Listing.add
  split <;> rfl

theorem items_addAll (cs ds : Causes) :
    (cs.addAll ds).items = Listing.addAll cs.items ds.items := by
  unfold addAll Listing.addAll
  induction ds.items generalizing cs with
  | nil => rfl
  | cons d ds ih => rw [List.foldl_cons, List.foldl_cons, ih, items_add]

theorem items_foldl_addAll (fs : List TargetFailure) (cs : Causes) :
    (fs.foldl (fun cs f => cs.addAll f.causes) cs).items =
      Listing.distinct (cs.items ++ fs.flatMap fun f => f.causes.items) := by
  have hknown : Listing.distinct cs.items = cs.items := Listing.distinct_eq_self_iff.mpr cs.nodup
  rw [Listing.distinct, Listing.addAll_append, ← Listing.distinct, hknown]
  clear hknown
  induction fs generalizing cs with
  | nil => rfl
  | cons f fs ih =>
      rw [List.foldl_cons, ih, items_addAll, List.flatMap_cons, Listing.addAll_append]

/-! ### The most important tag -/

theorem mostImportant_eq_some_iff {cs : Causes} {t : Tag} : cs.mostImportant = some t ↔
    (∃ c ∈ cs, c.tag = t) ∧ ∀ c ∈ cs, t.rank ≤ c.tag.rank := by
  rw [cs.upToDate, Tag.best?_eq_some_iff, List.mem_map, List.forall_mem_map]
  rfl

theorem mostImportant_eq_none_iff {cs : Causes} : cs.mostImportant = none ↔ cs.isEmpty = true := by
  rw [cs.upToDate, Tag.best?_eq_none_iff, List.map_eq_nil_iff, isEmpty, List.isEmpty_iff]

theorem moreImportant?_mostImportant {cs ds : Causes} (h : ∀ c ∈ cs, c ∈ ds) :
    Tag.moreImportant? ds.mostImportant cs.mostImportant = ds.mostImportant := by
  cases hcs : cs.mostImportant with
  | none => exact Tag.moreImportant?_none _
  | some t =>
      obtain ⟨⟨c, hc, rfl⟩, -⟩ := mostImportant_eq_some_iff.mp hcs
      rw [upToDate_of_mem (h c hc), ds.upToDate]

/-! ### Sets put together in any way -/

theorem eq_of_items {cs ds : Causes} (h : cs.items = ds.items) : cs = ds := by
  have hbest : cs.mostImportant = ds.mostImportant := by rw [cs.upToDate, ds.upToDate, h]
  obtain ⟨items, best, _, _⟩ := cs
  obtain rfl : items = ds.items := h
  obtain rfl : best = ds.mostImportant := hbest
  rfl

/-- A set that is included is added in vain. -/
theorem addAll_of_subset {cs other : Causes} (h : ∀ c ∈ other, c ∈ cs) : cs.addAll other = cs :=
  eq_of_items ((items_addAll cs other).trans (Listing.addAll_of_subset h))

/-- How a set of causes is put together: causes are added to the empty set, and so are all causes of
sets that are put together in the same way. -/
inductive Building where
  | empty
  | add (b : Building) (c : Cause)
  | addAll (b other : Building)

namespace Building

def result : Building → Causes
  | empty => ∅
  | add b c => b.result.add c
  | addAll b other => b.result.addAll other.result

def mentioned : Building → List Cause
  | empty => []
  | add b c => b.mentioned ++ [c]
  | addAll b other => b.mentioned ++ other.mentioned

theorem items_result (b : Building) : b.result.items = b.mentioned.eraseDups := by
  rw [← Listing.distinct_eq_eraseDups, Listing.distinct]
  induction b with
  | empty => rfl
  | add b c ih =>
      rw [result, items_add, ih, mentioned, Listing.addAll_append]
      rfl
  | addAll b other ih ih' =>
      rw [result, items_addAll, ih, ih', mentioned, Listing.addAll_append, Listing.addAll_addAll]
      rfl

theorem mem_result {b : Building} {c : Cause} : c ∈ b.result ↔ c ∈ b.mentioned := by
  rw [mem_def, items_result, List.mem_eraseDups]

end Building

theorem perm_of_mem_iff {cs ds : Causes} (h : ∀ c, c ∈ cs ↔ c ∈ ds) : cs.items.Perm ds.items :=
  (List.perm_ext_iff_of_nodup cs.nodup ds.nodup).mpr h

theorem mostImportant_congr {cs ds : Causes} (h : ∀ c, c ∈ cs ↔ c ∈ ds) :
    cs.mostImportant = ds.mostImportant := by
  rw [cs.upToDate, ds.upToDate]
  exact Tag.best?_congr fun t => (perm_of_mem_iff h).map Cause.tag |>.mem_iff

/-- A set that is put together in any way lists the causes mentioned, each once and in the order in
which they were first seen. Its most important tag is the one that ranks first among those of its
causes, and is absent just if there are none. Any other way of putting a set together that mentions
the same causes comes to the same causes and the same tag, and whatever is included in the set is
added in vain. -/
theorem arrival_order_irrelevant (b : Building) :
    b.result.items = b.mentioned.eraseDups ∧ b.result.items.Nodup ∧
      (∀ t, b.result.mostImportant = some t ↔
        (∃ c ∈ b.result, c.tag = t) ∧ ∀ c ∈ b.result, t.rank ≤ c.tag.rank) ∧
      (b.result.mostImportant = none ↔ b.result.isEmpty = true) ∧
      (∀ b' : Building, (∀ c, c ∈ b.mentioned ↔ c ∈ b'.mentioned) →
        b.result.items.Perm b'.result.items ∧
          b.result.mostImportant = b'.result.mostImportant) ∧
      ∀ other : Building, (∀ c ∈ other.result, c ∈ b.result) →
        b.result.addAll other.result = b.result := by
  refine ⟨b.items_result, b.result.nodup, fun t => mostImportant_eq_some_iff,
    mostImportant_eq_none_iff, fun b' h => ?_, fun other h => addAll_of_subset h⟩
  have hmem : ∀ c, c ∈ b.result ↔ c ∈ b'.result := fun c => by
    rw [Building.mem_result, Building.mem_result, h]
  exact ⟨perm_of_mem_iff hmem, mostImportant_congr hmem⟩

end BuildAnalysis.Causes

namespace BuildAnalysis.CausesSample

open Causes (Building)

def shop : Label := ⟨⟨"shop", rfl, by decide⟩, ⟨"cart", rfl, by decide⟩⟩

def broken : Cause := ⟨shop, none, .analysis, "Analysis failed"⟩

def missing : Cause := ⟨shop, none, .targetNotFound, "no such target"⟩

/-- One cause after the other, the first one twice. -/
def oneByOne : Building := ((Building.empty.add broken).add missing).add broken

/-- A set that was put together from another one. -/
def merged : Building :=
  (Building.empty.add missing).addAll ((Building.empty.add broken).addAll (.add .empty missing))

theorem arrival_order_irrelevant_merged :
    (∀ c, c ∈ oneByOne.mentioned ↔ c ∈ merged.mentioned) ∧
      oneByOne.result.items = [broken, missing] ∧ merged.result.items = [missing, broken] ∧
      oneByOne.result.items.Perm merged.result.items ∧
      oneByOne.result.mostImportant = some .targetNotFound ∧
      merged.result.mostImportant = some .targetNotFound ∧
      oneByOne.result.addAll merged.result = oneByOne.result := by
  have hmem : ∀ c, c ∈ oneByOne.mentioned ↔ c ∈ merged.mentioned := by
    intro c
    simp only [oneByOne, merged, Building.mentioned, List.mem_append, List.mem_singleton]
    grind
  obtain ⟨hitems, -, -, -, hsame, hvain⟩ := Causes.arrival_order_irrelevant oneByOne
  have hincluded : ∀ c ∈ merged.result, c ∈ oneByOne.result := fun c hc =>
    Building.mem_result.mpr ((hmem c).mpr (Building.mem_result.mp hc))
  obtain ⟨hperm, hbest⟩ := hsame merged hmem
  have hfirst : oneByOne.result.mostImportant = some .targetNotFound := by decide
  exact ⟨hmem, by decide, by decide, hperm, hfirst, hbest ▸ hfirst, hvain merged hincluded⟩

end BuildAnalysis.CausesSample
