import Mathlib.Data.List.Nodup
import BuildAnalysis.Proofs.Collection.Listing
import BuildAnalysis.Proofs.Engine.Replay

/-!
# Laws of the store

Values and entries, the record of dependents, and what dropping keys leaves. A sweep only removes
entries. If the entries outside its queue have their dependencies present and recorded, then all
entries that it leaves do; a sweep of what was computed from a key leaves nothing that depends on
that key.
-/
namespace BuildAnalysis.Engine.Store

variable {S : KeySpace} {s t : Store S} {k l : S.Key}

def Unique (s : Store S) : Prop := (s.entries.map Entry.key).Nodup

theorem Unique.eq {e f : Entry S} (h : s.Unique) (he : e ∈ s.entries) (hf : f ∈ s.entries)
    (hk : e.key = f.key) : e = f := List.inj_on_of_nodup_map h he hf hk

theorem exists_mem_of_valueIn? {es : List (Entry S)} {v : S.Value k} (h : valueIn? k es = some v) :
    ∃ deps, ⟨k, v, deps⟩ ∈ es := by
  induction es with
  | nil => cases h
  | cons e es ih =>
      simp only [valueIn?] at h
      split at h
      next hk =>
        obtain ⟨key, value, deps⟩ := e
        subst hk
        obtain rfl := Option.some.inj h
        exact ⟨deps, List.mem_cons_self⟩
      next =>
        obtain ⟨deps, hdeps⟩ := ih h
        exact ⟨deps, List.mem_cons_of_mem _ hdeps⟩

theorem isSome_valueIn? {es : List (Entry S)} :
    (valueIn? k es).isSome = true ↔ k ∈ es.map Entry.key := by
  induction es with
  | nil => simp [valueIn?]
  | cons e es ih =>
      simp only [valueIn?, List.map_cons, List.mem_cons]
      split
      next hk => simp [hk]
      next hk => simp [ih, Ne.symm hk]

theorem contains_iff : s.contains k = true ↔ k ∈ s.entries.map Entry.key := isSome_valueIn?

theorem contains_of_mem {e : Entry S} (h : e ∈ s.entries) : s.contains e.key = true :=
  contains_iff.mpr (List.mem_map_of_mem h)

theorem exists_mem_of_contains (h : s.contains k = true) : ∃ e ∈ s.entries, e.key = k :=
  List.mem_map.mp (contains_iff.mp h)

theorem exists_mem_of_value? {v : S.Value k} (h : s.value? k = some v) :
    ∃ deps, ⟨k, v, deps⟩ ∈ s.entries := exists_mem_of_valueIn? h

theorem Unique.value? (h : s.Unique) {e : Entry S} (he : e ∈ s.entries) :
    s.value? e.key = some e.value := by
  obtain ⟨v, hv⟩ := Option.isSome_iff_exists.mp (contains_of_mem he)
  obtain ⟨deps, hd⟩ := exists_mem_of_value? hv
  obtain ⟨key, value, deps'⟩ := e
  cases h.eq he hd rfl
  exact hv

theorem Unique.within (h : t.Unique) (hsub : ∀ e ∈ s.entries, e ∈ t.entries) : s.Within t := by
  intro k v hv
  obtain ⟨deps, hd⟩ := exists_mem_of_value? hv
  exact h.value? (hsub _ hd)

theorem entry?_eq_none (h : s.entry? k = none) : ∀ e ∈ s.entries, e.key ≠ k := by
  intro e he
  simpa using List.find?_eq_none.mp h e he

theorem valueIn?_append (es fs : List (Entry S)) :
    valueIn? k (es ++ fs) = (valueIn? k es).or (valueIn? k fs) := by
  induction es with
  | nil => rfl
  | cons e es ih =>
      simp only [List.cons_append, valueIn?]
      split
      next => rfl
      next => exact ih

theorem valueIn?_filter (es : List (Entry S)) :
    valueIn? l (es.filter fun e => e.key ≠ k) = if l = k then none else valueIn? l es := by
  induction es with
  | nil => simp [valueIn?]
  | cons e es ih =>
      rw [List.filter_cons]
      by_cases hk : e.key = k
      · rw [if_neg (by simpa using hk), ih, valueIn?]
        split
        next => rfl
        next hl => rw [dif_neg (hk ▸ Ne.symm hl)]
      · rw [if_pos (by simpa using hk), valueIn?, valueIn?, ih]
        split
        next hl => rw [if_neg (hl ▸ hk)]
        next => rfl

@[simp] theorem remove_entries (s : Store S) (k : S.Key) :
    (s.remove k).entries = s.entries.filter fun e => e.key ≠ k := by
  unfold remove
  split
  next h =>
    refine (List.filter_eq_self.mpr fun e he => ?_).symm
    simpa using entry?_eq_none h e he
  next => rfl

theorem remove_value? (s : Store S) (k l : S.Key) :
    (s.remove k).value? l = if l = k then none else s.value? l := by
  simp only [value?, remove_entries]
  exact valueIn?_filter s.entries

theorem dependentsOf_dropDependentsOf (s : Store S) (k l : S.Key) :
    (s.dropDependentsOf k).dependentsOf l = if l = k then [] else s.dependentsOf l := by
  simp only [dependentsOf, dropDependentsOf, Listing.find?_filter]
  split <;> rfl

theorem find?_addDependent (k dep : S.Key) (ds : List (S.Key × List S.Key)) :
    Listing.find? l (addDependent k dep ds) =
      if l = dep then some (Listing.add ((Listing.find? l ds).getD []) k)
      else Listing.find? l ds := by
  induction ds with
  | nil =>
      by_cases h : l = dep
      · simp [addDependent, Listing.find?, Listing.add, h]
      · simp [addDependent, Listing.find?, h, Ne.symm h]
  | cons d ds ih =>
      simp only [addDependent]
      by_cases hd : d.1 = dep
      · by_cases hl : l = dep
        · rw [if_pos hd, if_pos hl, Listing.find?, Listing.find?, if_pos (hd.trans hl.symm),
            if_pos (hd.trans hl.symm)]
          rfl
        · have hdl : ¬ d.1 = l := fun h => hl (h.symm.trans hd)
          rw [if_pos hd, if_neg hl, Listing.find?, Listing.find?, if_neg hdl, if_neg hdl]
      · rw [if_neg hd, Listing.find?, Listing.find?, ih]
        by_cases hdl : d.1 = l
        · rw [if_pos hdl, if_pos hdl, if_neg (hdl ▸ hd)]
        · rw [if_neg hdl, if_neg hdl]

theorem find?_dropDependent (k dep : S.Key) (ds : List (S.Key × List S.Key)) :
    Listing.find? l (dropDependent k ds dep) =
      (Listing.find? l ds).map fun xs => if l = dep then xs.filter fun x => x ≠ k else xs := by
  have hmap : dropDependent k ds dep = ds.map fun e =>
      (e.1, if e.1 = dep then e.2.filter fun x => x ≠ k else e.2) := by
    refine List.map_congr_left fun e _ => ?_
    split <;> rfl
  rw [hmap]
  exact Listing.find?_map (fun a (xs : List S.Key) =>
    if a = dep then xs.filter fun x => x ≠ k else xs) l ds

theorem mem_dependentsOf_foldl_addDependent {x : S.Key} (es : List (Entry S))
    (deps : List S.Key) (ds : List (S.Key × List S.Key)) :
    x ∈ dependentsOf ⟨es, deps.foldl (fun ds dep => addDependent k dep ds) ds⟩ l ↔
      x ∈ dependentsOf ⟨es, ds⟩ l ∨ (x = k ∧ l ∈ deps) := by
  induction deps generalizing ds with
  | nil => simp
  | cons dep deps ih =>
      rw [List.foldl_cons, ih]
      simp only [dependentsOf, find?_addDependent, List.mem_cons]
      by_cases h : l = dep
      · simp only [h, ite_true, Option.getD_some, Listing.mem_add, true_or, and_true]
        tauto
      · simp [h]

theorem mem_dependentsOf_foldl_dropDependent {x : S.Key} (es : List (Entry S))
    (deps : List S.Key) (ds : List (S.Key × List S.Key)) :
    x ∈ dependentsOf ⟨es, deps.foldl (dropDependent k) ds⟩ l ↔
      x ∈ dependentsOf ⟨es, ds⟩ l ∧ ¬ (x = k ∧ l ∈ deps) := by
  induction deps generalizing ds with
  | nil => simp
  | cons dep deps ih =>
      rw [List.foldl_cons, ih]
      simp only [dependentsOf, find?_dropDependent]
      cases Listing.find? l ds with
      | none => simp
      | some b =>
          by_cases h : l = dep
          · simp [h]
            tauto
          · simp [h]

theorem mem_dependentsOf_remove {x : S.Key} (h : x ∈ (s.remove k).dependentsOf l) :
    x ∈ s.dependentsOf l := by
  unfold remove at h
  split at h
  next => exact h
  next => exact ((mem_dependentsOf_foldl_dropDependent _ _ _).mp h).1

theorem mem_dependentsOf_remove_of_ne {x : S.Key} (hx : x ≠ k) (h : x ∈ s.dependentsOf l) :
    x ∈ (s.remove k).dependentsOf l := by
  unfold remove
  split
  next => exact h
  next => exact (mem_dependentsOf_foldl_dropDependent _ _ _).mpr ⟨h, fun hk => hx hk.1⟩

/-- The entries whose keys are not in the queue have all their dependencies present, and are
recorded as their dependents. -/
def LinkedUpTo (s : Store S) (queue : List S.Key) : Prop :=
  ∀ e ∈ s.entries, e.key ∉ queue → ∀ d ∈ e.deps, s.contains d = true ∧ e.key ∈ s.dependentsOf d

/-- The step of a sweep: the entry of a key goes, and its dependents are to go. -/
theorem LinkedUpTo.pop {rest : List S.Key} (h : s.LinkedUpTo (k :: rest)) :
    ((s.dropDependentsOf k).remove k).LinkedUpTo (s.dependentsOf k ++ rest) := by
  intro e he hq d hd
  rw [remove_entries] at he
  obtain ⟨hes, hek⟩ := List.mem_filter.mp he
  have hek : e.key ≠ k := by simpa using hek
  have hq' : e.key ∉ k :: rest := by
    intro hmem
    rcases List.mem_cons.mp hmem with hmem | hmem
    · exact hek hmem
    · exact hq (List.mem_append_right _ hmem)
  obtain ⟨hpresent, hrecorded⟩ := h e hes hq' d hd
  have hdk : d ≠ k := by
    rintro rfl
    exact hq (List.mem_append_left _ hrecorded)
  constructor
  · simp only [contains, remove_value?, if_neg hdk]
    exact hpresent
  · refine mem_dependentsOf_remove_of_ne hek ?_
    rw [dependentsOf_dropDependentsOf, if_neg hdk]
    exact hrecorded

structure Swept (s : Store S) (queue : List S.Key) (t : Store S) : Prop where
  entries : t.entries.Sublist s.entries
  dependents : ∀ x l, x ∈ t.dependentsOf l → x ∈ s.dependentsOf l
  linked : s.LinkedUpTo queue → t.LinkedUpTo []
  dropped : ∀ k ∈ queue, t.contains k = false
  /-- What neither is in the queue nor depends on anything stays. -/
  kept : ∀ k, k ∉ queue → (∀ l, k ∉ s.dependentsOf l) → t.value? k = s.value? k

theorem swept_sweep (s : Store S) (queue : List S.Key) : s.Swept queue (s.sweep queue).1 := by
  fun_induction sweep s queue with
  | case1 s => exact ⟨.refl _, fun _ _ h => h, id, by simp, fun _ _ _ => rfl⟩
  | case2 s k rest more lighter swept ih =>
      have hentries : swept.1.entries.Sublist (s.entries.filter fun e => e.key ≠ k) := by
        have := ih.entries
        rwa [remove_entries] at this
      refine ⟨hentries.trans List.filter_sublist, fun x l hx => ?_, fun h => ih.linked h.pop,
        fun l hl => ?_, fun l hl hfree => ?_⟩
      · have := mem_dependentsOf_remove (ih.dependents x l hx)
        rw [dependentsOf_dropDependentsOf] at this
        split at this
        · cases this
        · exact this
      · rcases List.mem_cons.mp hl with rfl | hl
        · refine Bool.eq_false_iff.mpr fun hc => ?_
          obtain ⟨e, he, hek⟩ := exists_mem_of_contains hc
          have := (List.mem_filter.mp (hentries.subset he)).2
          simp [hek] at this
        · exact ih.dropped l (List.mem_append_right _ hl)
      · have hlk : l ≠ k := fun h => hl (h ▸ List.mem_cons_self)
        have hrest : l ∉ rest := fun h => hl (List.mem_cons_of_mem _ h)
        rw [ih.kept l]
        · rw [remove_value?, if_neg hlk]
          rfl
        · intro hmem
          rcases List.mem_append.mp hmem with hmem | hmem
          · exact hfree k hmem
          · exact hrest hmem
        · intro l' hmem
          have := mem_dependentsOf_remove hmem
          rw [dependentsOf_dropDependentsOf] at this
          split at this
          · cases this
          · exact hfree l' this

theorem LinkedUpTo.dropDependentsOf (h : s.LinkedUpTo []) (k : S.Key) :
    (s.dropDependentsOf k).LinkedUpTo (s.dependentsOf k) := by
  intro e he hq d hd
  obtain ⟨hpresent, hrecorded⟩ := h e he List.not_mem_nil d hd
  refine ⟨hpresent, ?_⟩
  rw [dependentsOf_dropDependentsOf, if_neg]
  · exact hrecorded
  · rintro rfl
    exact hq hrecorded

/-- Dropping what was computed from a key, as a sweep of its dependents. -/
theorem swept_dropComputedFrom (s : Store S) (k : S.Key) :
    (s.dropDependentsOf k).Swept (s.dependentsOf k) (s.dropComputedFrom k).1 :=
  swept_sweep _ _

theorem not_mem_deps_dropComputedFrom (h : s.LinkedUpTo []) {e : Entry S}
    (he : e ∈ (s.dropComputedFrom k).1.entries) : k ∉ e.deps := by
  intro hk
  have hswept := s.swept_dropComputedFrom k
  have hes : e ∈ s.entries := hswept.entries.subset he
  have hrecorded := (h e hes List.not_mem_nil k hk).2
  have := hswept.dropped e.key hrecorded
  rw [contains_of_mem he] at this
  cases this

theorem value?_dropComputedFrom (hfree : ∀ d, l ∉ s.dependentsOf d) :
    (s.dropComputedFrom k).1.value? l = s.value? l := by
  refine (s.swept_dropComputedFrom k).kept l (hfree k) fun d hd => ?_
  rw [dependentsOf_dropDependentsOf] at hd
  split at hd
  · cases hd
  · exact hfree d hd

theorem mem_dependentsOf_dropComputedFrom {x : S.Key}
    (h : x ∈ (s.dropComputedFrom k).1.dependentsOf l) : x ∈ s.dependentsOf l := by
  have := (s.swept_dropComputedFrom k).dependents x l h
  rw [dependentsOf_dropDependentsOf] at this
  split at this
  · cases this
  · exact this

def set (s : Store S) (k : S.Key) (v : S.Value k) : Store S :=
  { s with entries := (s.entries.filter fun e => e.key ≠ k) ++ [⟨k, v, []⟩] }

theorem value?_set_self (s : Store S) (k : S.Key) (v : S.Value k) :
    (s.set k v).value? k = some v := by
  rw [value?, set, valueIn?_append, valueIn?_filter, if_pos rfl]
  simp [valueIn?]

theorem value?_set_of_ne (v : S.Value k) (h : l ≠ k) : (s.set k v).value? l = s.value? l := by
  rw [value?, set, valueIn?_append, valueIn?_filter, if_neg h]
  simp [valueIn?, Ne.symm h, value?]

theorem setInjected_eq (s : Store S) (k : S.Key) (v : S.Value k) :
    ((∃ old, s.value? k = some old ∧ S.sameValue k old v = true) ∧ (s.setInjected k v).1 = s) ∨
      (s.setInjected k v).1 = (s.dropComputedFrom k).1.set k v := by
  simp only [setInjected]
  cases h : s.value? k with
  | none => exact .inr rfl
  | some old =>
      by_cases hsame : S.sameValue k old v = true
      · exact .inl ⟨⟨old, rfl, hsame⟩, by simp [hsame]⟩
      · exact .inr (by simp [hsame, set])

theorem applyAll_cons (s : Store S) (c : Change S) (cs : List (Change S)) :
    (s.applyAll (c :: cs)).1 = ((s.apply c).1.applyAll cs).1 := by
  have hcount : ∀ (cs : List (Change S)) (s : Store S) (m n : Nat),
      (cs.foldl (fun acc c => ((acc.1.apply c).1, acc.2 + (acc.1.apply c).2)) (s, m)).1 =
        (cs.foldl (fun acc c => ((acc.1.apply c).1, acc.2 + (acc.1.apply c).2)) (s, n)).1 := by
    intro cs
    induction cs with
    | nil => intro s m n; rfl
    | cons c cs ih => intro s m n; exact ih _ _ _
  exact hcount cs _ _ _

theorem insertComputed_of_none {v : S.Value k} (h : s.value? k = none) (deps : List S.Key) :
    s.insertComputed k v deps =
      (⟨s.entries ++ [⟨k, v, deps⟩],
        deps.foldl (fun ds dep => addDependent k dep ds) s.dependents⟩, v) := by
  simp [insertComputed, h]

theorem insertComputed_of_some {v old : S.Value k} (h : s.value? k = some old)
    (deps : List S.Key) : s.insertComputed k v deps = (s, old) := by
  simp [insertComputed, h]

theorem value?_insertComputed_of_none {v : S.Value k} (h : s.value? k = none)
    (deps : List S.Key) (l : S.Key) :
    (s.insertComputed k v deps).1.value? l = (s.value? l).or (valueIn? l [⟨k, v, deps⟩]) := by
  rw [insertComputed_of_none h]
  exact valueIn?_append _ _

/-- Inserting a value keeps all others. -/
theorem within_insertComputed (v : S.Value k) (deps : List S.Key) :
    s.Within (s.insertComputed k v deps).1 := by
  intro l w hw
  cases h : s.value? k with
  | some old => rwa [insertComputed_of_some h]
  | none => rw [value?_insertComputed_of_none h, hw, Option.some_or]

/-- What is handed back is the value that the key has afterwards. -/
theorem value?_insertComputed_self (v : S.Value k) (deps : List S.Key) :
    (s.insertComputed k v deps).1.value? k = some (s.insertComputed k v deps).2 := by
  cases h : s.value? k with
  | some old => rw [insertComputed_of_some h, h]
  | none =>
      rw [value?_insertComputed_of_none h, h, insertComputed_of_none h]
      simp [valueIn?]

theorem contains_insertComputed (v : S.Value k) (deps : List S.Key) :
    (s.insertComputed k v deps).1.contains k = true := by
  cases h : s.value? k with
  | some old => rw [insertComputed_of_some h]; exact contains_of_value? h
  | none =>
      refine contains_of_value? (v := v) ?_
      rw [value?_insertComputed_of_none h, h]
      simp [valueIn?]

theorem Within.insertComputed {v : S.Value k} (h : s.Within t) (hv : t.value? k = some v)
    (deps : List S.Key) : (s.insertComputed k v deps).1.Within t := by
  intro l w hw
  cases hold : s.value? k with
  | some old => exact h l w (by rwa [insertComputed_of_some hold] at hw)
  | none =>
      rw [value?_insertComputed_of_none hold] at hw
      cases hl : s.value? l with
      | some w' =>
          rw [hl, Option.some_or] at hw
          exact h l w (hl.trans hw)
      | none =>
          rw [hl, Option.none_or] at hw
          simp only [valueIn?] at hw
          split at hw
          next hkl =>
            subst hkl
            exact hv.trans hw
          next => cases hw

end BuildAnalysis.Engine.Store
