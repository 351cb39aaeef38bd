import Mathlib.Data.Set.Card
import Mathlib.Logic.Relation
import BuildAnalysis.Engine.Script
import BuildAnalysis.Proofs.Engine.Mirror

/-!
# Invalidation is exact

Invalidating a key drops that key and the keys that were computed from it, directly or through
others, and no others; everything else keeps its value and what it was computed from. Setting a
value does the same around the key that is set, unless the value is the one the key has. A sweep
drops what leads to a key of its queue: each step takes one key away and puts its dependents into
the queue, which leaves the same keys to be dropped.
-/
namespace BuildAnalysis.Engine

namespace Store

open Relation

variable {S : KeySpace} {s t : Store S} {k l d : S.Key} {queue rest : List S.Key}

/-- Computed from a key, directly or through other stored keys. -/
def DependsOn (s : Store S) (l k : S.Key) : Prop := TransGen s.ComputedFrom l k

/-- Both stores hold the same for a key: its value, and what it was computed from. -/
def SameAt (s t : Store S) (l : S.Key) : Prop :=
  t.value? l = s.value? l ∧ t.entry? l = s.entry? l

/-- In a queue, or computed from a key in it, directly or through other stored keys. -/
def Outdated (s : Store S) (queue : List S.Key) (l : S.Key) : Prop :=
  ∃ k ∈ queue, ReflTransGen s.ComputedFrom l k

theorem outdated_pop (h : s.MirroredUpTo (k :: rest)) (hl : l ≠ k) :
    ((s.dropDependentsOf k).remove k).Outdated (s.dependentsOf k ++ rest) l ↔
      s.Outdated (k :: rest) l := by
  have hstep : ∀ a b, ((s.dropDependentsOf k).remove k).ComputedFrom a b ↔
      a ≠ k ∧ s.ComputedFrom a b := fun a b => computedFrom_remove
  constructor
  · rintro ⟨m, hm, hpath⟩
    have hpath' : ReflTransGen s.ComputedFrom l m :=
      ReflTransGen.mono (fun a b hab => ((hstep a b).mp hab).2) _ _ hpath
    rcases List.mem_append.mp hm with hm | hm
    · exact ⟨k, List.mem_cons_self, hpath'.tail (h.sound m k hm)⟩
    · exact ⟨m, List.mem_cons_of_mem k hm, hpath'⟩
  · rintro ⟨m, hm, hpath⟩
    -- Up to where the path first meets `k` it does without the entry of `k`.
    induction hpath using ReflTransGen.head_induction_on with
    | refl => exact ⟨m, List.mem_append_right _ ((List.mem_cons.mp hm).resolve_left hl), .refl⟩
    | @head a b hab _ ih =>
        by_cases hb : b = k
        · subst hb
          refine ⟨a, ?_, .refl⟩
          rcases h.complete a b hab with ha | ha
          · exact List.mem_append_right _ ((List.mem_cons.mp ha).resolve_left hl)
          · exact List.mem_append_left _ ha
        · obtain ⟨n, hn, hrest⟩ := ih hb
          exact ⟨n, hn, hrest.head ((hstep a b).mpr ⟨hl, hab⟩)⟩

/-- A sweep drops the keys that its queue leads back to, and keeps all others. -/
theorem mem_entries_sweep (h : s.MirroredUpTo queue) {e : Entry S} :
    e ∈ (s.sweep queue).1.entries ↔ e ∈ s.entries ∧ ¬ s.Outdated queue e.key := by
  fun_induction sweep s queue with
  | case1 s => simp [Outdated]
  | case2 s k rest more lighter swept ih =>
      rw [ih h.pop, remove_entries, List.mem_filter, decide_eq_true_eq, and_assoc]
      refine and_congr_right fun _ => ?_
      by_cases hek : e.key = k
      · have hout : s.Outdated (k :: rest) e.key := ⟨k, List.mem_cons_self, hek ▸ .refl⟩
        exact iff_of_false (fun hn => hn.1 hek) (fun hn => hn hout)
      · rw [outdated_pop h hek]
        exact and_iff_right hek

theorem length_filter_key {es : List (Entry S)} (h : (es.map Entry.key).Nodup) (k : S.Key) :
    (es.filter fun e => e.key ≠ k).length + (if (valueIn? k es).isSome then 1 else 0) =
      es.length := by
  induction es with
  | nil => rfl
  | cons e es ih =>
      obtain ⟨hfresh, hnodup⟩ := List.nodup_cons.mp h
      have hrest := ih hnodup
      by_cases hek : e.key = k
      · have hnone : (valueIn? k es).isSome = false :=
          Bool.eq_false_iff.mpr fun hsome => hfresh (hek ▸ isSome_valueIn?.mp hsome)
        rw [hnone] at hrest
        rw [List.filter_cons_of_neg (by simpa using hek), valueIn?, dif_pos hek, List.length_cons,
          ← hrest]
        rfl
      · rw [List.filter_cons_of_pos (by simpa using hek), valueIn?, dif_neg hek, List.length_cons,
          List.length_cons, ← hrest]
        omega

/-- Removing a key takes away one entry, if there is one. -/
theorem size_remove (h : s.Unique) (k : S.Key) :
    (s.remove k).size + (if s.contains k then 1 else 0) = s.size := by
  rw [size, remove_entries]
  exact length_filter_key h k

theorem size_sweep (h : s.Unique) (queue : List S.Key) :
    (s.sweep queue).1.size + (s.sweep queue).2 = s.size := by
  fun_induction sweep s queue with
  | case1 s => rfl
  | case2 s k rest more lighter swept ih =>
      have hremove : (lighter.remove k).size + (if s.contains k then 1 else 0) = s.size :=
        size_remove (s := lighter) h k
      have hunique : (lighter.remove k).Unique := Unique.remove (s := lighter) h k
      have hswept : swept.1.size + swept.2 = (lighter.remove k).size := ih hunique
      change swept.1.size + (swept.2 + if s.contains k then 1 else 0) = s.size
      omega

theorem mem_entries_dropComputedFrom (h : s.Mirrored) {e : Entry S} :
    e ∈ (s.dropComputedFrom k).1.entries ↔ e ∈ s.entries ∧ ¬ s.DependsOn e.key k := by
  have hqueue : (s.dropDependentsOf k).Outdated (s.dependentsOf k) e.key ↔
      s.DependsOn e.key k := by
    rw [DependsOn, TransGen.tail'_iff]
    refine exists_congr fun d => ?_
    rw [h.mem_dependentsOf_iff]
    exact and_comm
  rw [dropComputedFrom, mem_entries_sweep (h.dropDependentsOf k), hqueue]
  rfl

theorem mem_entries_invalidate (h : s.Mirrored) {e : Entry S} :
    e ∈ (s.invalidate k).1.entries ↔
      e ∈ s.entries ∧ ¬ (e.key = k ∨ s.DependsOn e.key k) := by
  rw [invalidate, remove_entries, List.mem_filter, mem_entries_dropComputedFrom h,
    decide_eq_true_eq, not_or, and_assoc, and_comm (a := e.key ≠ k)]

theorem size_invalidate (h : s.Mirrored) (k : S.Key) :
    (s.invalidate k).1.size + (s.invalidate k).2 = s.size := by
  have hdropped : (s.dropComputedFrom k).1.size + (s.dropComputedFrom k).2 = s.size :=
    size_sweep (s := s.dropDependentsOf k) h.unique (s.dependentsOf k)
  have hremoved := size_remove (h.dropComputedFrom k).unique k
  change ((s.dropComputedFrom k).1.remove k).size + ((s.dropComputedFrom k).2 +
    if (s.dropComputedFrom k).1.contains k then 1 else 0) = s.size
  omega

theorem mem_entries_set (s : Store S) (v : S.Value k) {e : Entry S} :
    e ∈ (s.set k v).entries ↔ (e ∈ s.entries ∧ e.key ≠ k) ∨ e = ⟨k, v, []⟩ := by
  simp only [set, List.mem_append, List.mem_filter, List.mem_singleton, decide_eq_true_eq]

theorem setInjected_of_same {v old : S.Value k} (hold : s.value? k = some old)
    (hsame : S.sameValue k old v = true) : s.setInjected k v = (s, false) := by
  simp [setInjected, hold, hsame]

theorem setInjected_of_change {v : S.Value k}
    (h : ¬ ∃ old, s.value? k = some old ∧ S.sameValue k old v = true) :
    s.setInjected k v = ((s.dropComputedFrom k).1.set k v, true) := by
  unfold setInjected
  cases hold : s.value? k with
  | none => rfl
  | some old =>
      have hsame : S.sameValue k old v = false := Bool.eq_false_iff.mpr fun hsame =>
        h ⟨old, hold, hsame⟩
      simp [hsame, set]

theorem Unique.entry_eq (h : s.Unique) {e : Entry S} (he : e ∈ s.entries) :
    s.entry? e.key = some e := by
  cases hfound : s.entry? e.key with
  | none => exact absurd rfl (entry?_eq_none hfound e he)
  | some f =>
      obtain ⟨hf, hfe⟩ := entry?_eq_some hfound
      rw [h.eq hf he hfe]

theorem contains_eq_false (h : ∀ e ∈ s.entries, e.key ≠ k) : s.contains k = false := by
  refine Bool.eq_false_iff.mpr fun hk => ?_
  obtain ⟨e, he, hek⟩ := exists_mem_of_contains hk
  exact h e he hek

theorem sameAt_of_mem (hs : s.Unique) (ht : t.Unique)
    (h : ∀ e : Entry S, e.key = l → (e ∈ t.entries ↔ e ∈ s.entries)) : s.SameAt t l := by
  cases hl : s.entry? l with
  | none =>
      have hnone := entry?_eq_none hl
      have hnone' : ∀ e ∈ t.entries, e.key ≠ l := fun e he hel =>
        hnone e ((h e hel).mp he) hel
      have hvalue :=
        Option.not_isSome_iff_eq_none.mp (Bool.eq_false_iff.mp (contains_eq_false hnone))
      have hvalue' :=
        Option.not_isSome_iff_eq_none.mp (Bool.eq_false_iff.mp (contains_eq_false hnone'))
      refine ⟨hvalue'.trans hvalue.symm, ?_⟩
      rw [hl]
      exact List.find?_eq_none.mpr fun e he => by simpa using hnone' e he
  | some e =>
      obtain ⟨he, rfl⟩ := entry?_eq_some hl
      have he' := (h e rfl).mpr he
      exact ⟨(ht.value? he').trans (hs.value? he).symm, (ht.entry_eq he').trans hl.symm⟩

/-- A key that is outdated has no value in the second store; any other has what it has in the
first. -/
def DroppedIf (outdated : Prop) (s t : Store S) (l : S.Key) : Prop :=
  (outdated → t.contains l = false) ∧ (¬ outdated → s.SameAt t l)

theorem droppedIf_of_mem {outdated : Prop} (hs : s.Unique) (ht : t.Unique)
    (h : ∀ e : Entry S, e.key = l → (e ∈ t.entries ↔ e ∈ s.entries ∧ ¬ outdated)) :
    DroppedIf outdated s t l :=
  ⟨fun hout => contains_eq_false fun e he hel => ((h e hel).mp he).2 hout,
    fun hkeep => sameAt_of_mem hs ht fun e hel => (h e hel).trans (and_iff_left hkeep)⟩

theorem ncard_contains (h : s.Unique) : {l | s.contains l = true}.ncard = s.size := by
  have hset : {l | s.contains l = true} = ↑(s.entries.map Entry.key).toFinset := by
    ext l
    simp [contains_iff]
  rw [hset, Set.ncard_coe_finset, List.toFinset_card_of_nodup h, List.length_map, size]

theorem finite_contains (s : Store S) : {l | s.contains l = true}.Finite := by
  simp only [contains_iff]
  exact List.finite_toSet _

/-- The dropped keys that had a value and the entries that are left make up all entries. -/
theorem ncard_outdated {outdated : S.Key → Prop} (hs : s.Unique) (ht : t.Unique)
    (h : ∀ l, DroppedIf (outdated l) s t l) :
    t.size + {l | s.contains l = true ∧ outdated l}.ncard = s.size := by
  have hcontains : ∀ l, t.contains l = true ↔ s.contains l = true ∧ ¬ outdated l := by
    intro l
    by_cases hl : outdated l
    · simp [(h l).1 hl, hl]
    · simp [contains, ((h l).2 hl).1, hl]
  have hunion : {l | s.contains l = true} =
      {l | t.contains l = true} ∪ {l | s.contains l = true ∧ outdated l} := by
    ext l
    simp only [Set.mem_union, Set.mem_ofPred_eq, hcontains]
    tauto
  have hdisjoint : Disjoint {l | t.contains l = true} {l | s.contains l = true ∧ outdated l} :=
    Set.disjoint_left.mpr fun l hl hout => ((hcontains l).mp hl).2 hout.2
  rw [← ncard_contains hs, ← ncard_contains ht, hunion]
  exact (Set.ncard_union_eq hdisjoint t.finite_contains
    (s.finite_contains.subset fun _ hl => hl.1)).symm

/-- Invalidating a key drops the key and what depends on it, and tells how many keys had a value.
Setting a key to the value that it has changes nothing; setting it to another one drops what depends
on it. All other keys are left as they were. -/
theorem invalidation_exact (h : s.Built) (k : S.Key) :
    ((∀ l, DroppedIf (l = k ∨ s.DependsOn l k) s (s.invalidate k).1 l) ∧
      (s.invalidate k).2 =
        {l | s.contains l = true ∧ (l = k ∨ s.DependsOn l k)}.ncard) ∧
    ∀ v : S.Value k,
      ((∃ old, s.value? k = some old ∧ S.sameValue k old v = true) →
        s.setInjected k v = (s, false)) ∧
      ((¬ ∃ old, s.value? k = some old ∧ S.sameValue k old v = true) →
        (s.setInjected k v).2 = true ∧
        (s.setInjected k v).1.value? k = some v ∧
        entry? (s.setInjected k v).1 k = some ⟨k, v, []⟩ ∧
        ∀ l, l ≠ k → DroppedIf (s.DependsOn l k) s (s.setInjected k v).1 l) := by
  have hmirrored := h.mirrored
  have hdropped := hmirrored.dropComputedFrom k
  have hinvalidated : ∀ l, DroppedIf (l = k ∨ s.DependsOn l k) s (s.invalidate k).1 l :=
    fun l => droppedIf_of_mem hmirrored.unique (hmirrored.invalidate k).unique fun e hel => by
      rw [mem_entries_invalidate hmirrored, hel]
  refine ⟨⟨hinvalidated, ?_⟩, fun v => ⟨?_, fun hchange => ?_⟩⟩
  · have hcount := size_invalidate hmirrored k
    have hncard := ncard_outdated hmirrored.unique (hmirrored.invalidate k).unique hinvalidated
    omega
  · rintro ⟨old, hold, hsame⟩
    exact setInjected_of_same hold hsame
  · have hunique := hdropped.unique.set v
    have hmem := (mem_entries_set (s.dropComputedFrom k).1 v).mpr (.inr rfl)
    rw [setInjected_of_change hchange]
    refine ⟨rfl, value?_set_self _ k v, hunique.entry_eq hmem, fun l hl => ?_⟩
    refine droppedIf_of_mem hmirrored.unique hunique fun e hel => ?_
    rw [mem_entries_set, mem_entries_dropComputedFrom hmirrored, hel]
    have hek : e ≠ ⟨k, v, []⟩ := fun hek => hl (hel ▸ congrArg Entry.key hek)
    simp [hek, hl]

end Store

namespace InvalidationSample

open Script Store Relation

def source : space.Key := NodeKey.base "source"

def left : space.Key := NodeKey.node "left"

def right : space.Key := NodeKey.node "right"

def top : space.Key := NodeKey.node "top"

def aside : space.Key := NodeKey.node "aside"

def absent : space.Key := NodeKey.base "absent"

def number (n : Int64) : Number := .ok n

/-- A base, two nodes computed from it, one computed from both of these, and one aside. -/
def diamond : Store space :=
  let s₁ := (({} : Store space).setInjected source (1 : Int64)).1
  let s₂ := (s₁.insertComputed left (number 1) [source]).1
  let s₃ := (s₂.insertComputed right (number 1) [source, source]).1
  let s₄ := (s₃.insertComputed top (number 2) [left, right]).1
  (s₄.insertComputed aside (number 3) [absent]).1

theorem built_diamond : diamond.Built := by
  refine Built.insertComputed ?_ rfl _ _
  refine Built.insertComputed ?_ rfl _ _
  refine Built.insertComputed ?_ rfl _ _
  refine Built.insertComputed ?_ rfl _ _
  exact Built.setInjected Built.empty rfl _

theorem entries_diamond : diamond.entries =
    [⟨source, (1 : Int64), []⟩, ⟨left, number 1, [source]⟩, ⟨right, number 1, [source, source]⟩,
      ⟨top, number 2, [left, right]⟩, ⟨aside, number 3, [absent]⟩] := by
  have hsource : (({} : Store space).setInjected source (1 : Int64)).1 =
      ⟨[⟨source, (1 : Int64), []⟩], []⟩ := by
    simp [setInjected, value?, valueIn?, dropComputedFrom, dependentsOf, Listing.find?, sweep,
      dropDependentsOf]
  rw [diamond, hsource]
  rfl

theorem computedFrom_diamond {k d : space.Key} :
    diamond.ComputedFrom k d ↔
      (k, d) ∈ [(left, source), (right, source), (top, left), (top, right), (aside, absent)] := by
  simp only [ComputedFrom, entries_diamond, List.mem_cons, List.not_mem_nil, or_false,
    exists_eq_or_imp, exists_eq_left, Prod.mk.injEq, or_self]
  grind

theorem dependsOn_top : diamond.DependsOn top source := by
  have htop : diamond.ComputedFrom top left := computedFrom_diamond.mpr (by simp)
  have hleft : diamond.ComputedFrom left source := computedFrom_diamond.mpr (by simp)
  exact (TransGen.single htop).tail hleft

theorem not_dependsOn_aside : ¬ diamond.DependsOn aside source := by
  intro h
  obtain ⟨d, haside, hrest⟩ := TransGen.head'_iff.mp h
  have hd : d = absent := by
    have hne : aside ≠ left ∧ aside ≠ right ∧ aside ≠ top := by decide
    simpa [hne] using computedFrom_diamond.mp haside
  subst hd
  rcases ReflTransGen.cases_head hrest with hsource | ⟨c, habsent, -⟩
  · exact absurd hsource (by decide)
  · have hmem : absent ∈ [left, right, top, top, aside] :=
      List.mem_map_of_mem (f := Prod.fst) (computedFrom_diamond.mp habsent)
    exact absurd hmem (by decide)

theorem invalidation_exact_diamond :
    diamond.Built ∧
      (diamond.invalidate source).1.contains top = false ∧
      diamond.SameAt (diamond.invalidate source).1 aside ∧
      diamond.setInjected source (1 : Int64) = (diamond, false) ∧
      (diamond.setInjected source (2 : Int64)).2 = true ∧
      (diamond.setInjected source (2 : Int64)).1.contains top = false := by
  obtain ⟨⟨hinvalidate, -⟩, hset⟩ := invalidation_exact built_diamond source
  have hvalue : diamond.value? source = some (1 : Int64) := by
    rw [value?, entries_diamond]
    rfl
  have hchange : ¬ ∃ old, diamond.value? source = some old ∧
      space.sameValue source old (2 : Int64) = true := by
    rintro ⟨old, hold, hsame⟩
    obtain rfl := Option.some.inj (hvalue.symm.trans hold)
    exact absurd hsame (by decide)
  obtain ⟨hreports, -, -, hdrops⟩ := (hset (2 : Int64)).2 hchange
  refine ⟨built_diamond, (hinvalidate top).1 (.inr dependsOn_top), (hinvalidate aside).2 ?_,
    (hset (1 : Int64)).1 ⟨_, hvalue, rfl⟩, hreports, (hdrops top (by decide)).1 dependsOn_top⟩
  rintro (haside | haside)
  · exact absurd haside (by decide)
  · exact not_dependsOn_aside haside

end InvalidationSample
end BuildAnalysis.Engine
