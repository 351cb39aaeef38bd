import Mathlib.Data.List.Perm.Subperm
import BuildAnalysis.Collection.SortedMap

/-!
# Members and entries of sorted collections

Where the order tells different items apart, inserting an item adds that item and nothing else, and
a union has the members of both sets. An entry that is inserted is the one found under its key, and
a union of maps has the entries of both, those of the second one winning. A map that has all entries
of another is at least as large, and larger exactly if it has one more.
-/
namespace BuildAnalysis

variable {α β : Type} [Ord α] [Std.TransOrd α] [Std.LawfulEqOrd α]

namespace SortedSet

omit [Std.TransOrd α] in
theorem mem_insertMember_iff {a x : α} {xs : List α} :
    x ∈ insertMember a xs ↔ x = a ∨ x ∈ xs := by
  refine ⟨mem_insertMember, fun h => ?_⟩
  fun_induction insertMember a xs with
  | case1 => simpa using h
  | case2 y ys _ => simpa using h
  | case3 y ys hc =>
      rcases h with rfl | h
      · rw [Std.compare_eq_iff_eq.mp hc]
        exact List.mem_cons_self
      · exact h
  | case4 y ys _ ih =>
      rcases h with h | h
      · exact List.mem_cons_of_mem _ (ih (.inl h))
      · rcases List.mem_cons.mp h with rfl | h
        · exact List.mem_cons_self
        · exact List.mem_cons_of_mem _ (ih (.inr h))

@[simp] theorem mem_insert {s : SortedSet α} {a x : α} : x ∈ s.insert a ↔ x = a ∨ x ∈ s :=
  mem_insertMember_iff

@[simp] theorem mem_insertAll {s : SortedSet α} {as : List α} {x : α} :
    x ∈ s.insertAll as ↔ x ∈ s ∨ x ∈ as := by
  unfold insertAll
  induction as generalizing s with
  | nil => simp
  | cons a as ih =>
      rw [List.foldl_cons, ih, mem_insert, List.mem_cons, or_comm (a := x = a), or_assoc]

@[simp] theorem mem_union {s t : SortedSet α} {x : α} : x ∈ s.union t ↔ x ∈ s ∨ x ∈ t :=
  mem_insertAll

omit [Std.TransOrd α] [Std.LawfulEqOrd α] in
theorem isSubset_iff [DecidableEq α] {s t : SortedSet α} :
    s.isSubset t = true ↔ ∀ x ∈ s, x ∈ t := by
  simp only [isSubset, List.all_eq_true, decide_eq_true_eq]
  rfl

theorem mem_foldl_union (g : β → SortedSet α) {bs : List β} {s : SortedSet α} {x : α} :
    x ∈ bs.foldl (fun s b => s.union (g b)) s ↔ x ∈ s ∨ ∃ b ∈ bs, x ∈ g b := by
  induction bs generalizing s with
  | nil => simp
  | cons b bs ih => simp [ih, or_assoc]

omit [Std.TransOrd α] in
theorem nodup_members (s : SortedSet α) : s.members.Nodup := by
  refine s.sorted.imp fun {a b} hlt => ?_
  rintro rfl
  rw [Std.compare_self] at hlt
  cases hlt

/-- Members picked in order are known by what is among them. -/
theorem eq_of_sublist {s : SortedSet α} {as bs : List α} (has : as.Sublist s.members)
    (hbs : bs.Sublist s.members) (h : ∀ x, x ∈ as ↔ x ∈ bs) : as = bs := by
  have hperm := (List.perm_ext_iff_of_nodup (s.nodup_members.sublist has)
    (s.nodup_members.sublist hbs)).mpr h
  refine hperm.eq_of_pairwise (fun a b _ _ hab hba => ?_) (s.sorted.sublist has)
    (s.sorted.sublist hbs)
  rw [Std.OrientedCmp.gt_of_lt hab] at hba
  cases hba

end SortedSet

namespace SortedMap

variable [DecidableEq α]

omit [Ord α] [Std.TransOrd α] [Std.LawfulEqOrd α] in
theorem lookup_cons_eq_ite (k l : α) (v : β) (es : List (α × β)) :
    ((k, v) :: es).lookup l = if l = k then some v else es.lookup l := by
  rw [List.lookup_cons]
  by_cases hl : l = k
  · rw [beq_iff_eq.mpr hl, if_pos hl]
  · rw [beq_eq_false_iff_ne.mpr hl, if_neg hl]

omit [Std.TransOrd α] in
theorem lookup_insertEntry (k l : α) (v : β) (es : List (α × β)) :
    (insertEntry k v es).lookup l = if l = k then some v else es.lookup l := by
  fun_induction insertEntry k v es with
  | case1 => exact lookup_cons_eq_ite k l v []
  | case2 e es _ => exact lookup_cons_eq_ite k l v (e :: es)
  | case3 e es hc =>
      obtain ⟨k', w⟩ := e
      obtain rfl : k = k' := Std.compare_eq_iff_eq.mp hc
      rw [lookup_cons_eq_ite, lookup_cons_eq_ite]
      split <;> rfl
  | case4 e es hc ih =>
      obtain ⟨k', w⟩ := e
      have hne : k ≠ k' := by
        rintro rfl
        rw [Std.compare_eq_iff_eq.mpr rfl] at hc
        cases hc
      rw [lookup_cons_eq_ite, lookup_cons_eq_ite, ih]
      by_cases hl : l = k
      · subst hl
        simp only [if_neg hne, if_true]
      · simp only [if_neg hl]

theorem get?_insert (m : SortedMap α β) (k l : α) (v : β) :
    (m.insert k v).get? l = if l = k then some v else m.get? l :=
  lookup_insertEntry k l v m.entries

omit [Std.TransOrd α] in
theorem lookup_eq_some_iff {es : List (α × β)}
    (sorted : es.Pairwise fun a b => compare a.1 b.1 = .lt) {k : α} {v : β} :
    es.lookup k = some v ↔ (k, v) ∈ es := by
  induction es with
  | nil => simp
  | cons e es ih =>
      obtain ⟨k', v'⟩ := e
      obtain ⟨hlt, sorted⟩ := List.pairwise_cons.mp sorted
      rw [lookup_cons_eq_ite, List.mem_cons, Prod.mk.injEq]
      by_cases hk : k = k'
      · subst hk
        have hrest : (k, v) ∉ es := fun hmem => by
          have hself := hlt _ hmem
          rw [Std.compare_self] at hself
          cases hself
        simp [hrest, eq_comm]
      · simp [hk, ih sorted]

omit [Std.TransOrd α] in
/-- The order keeps each key to one entry, so every entry is the one found under its key. -/
theorem get?_eq_some_iff {m : SortedMap α β} {k : α} {v : β} :
    m.get? k = some v ↔ (k, v) ∈ m.entries :=
  lookup_eq_some_iff m.sorted

theorem get?_foldl_insert {es : List (α × β)}
    (sorted : es.Pairwise fun a b => compare a.1 b.1 = .lt) (m : SortedMap α β) (k : α) :
    (es.foldl (fun m e => m.insert e.1 e.2) m).get? k = (es.lookup k).or (m.get? k) := by
  induction es generalizing m with
  | nil => rfl
  | cons e es ih =>
      obtain ⟨k', v⟩ := e
      obtain ⟨hlt, hes⟩ := List.pairwise_cons.mp sorted
      rw [List.foldl_cons, ih hes, get?_insert, lookup_cons_eq_ite]
      by_cases hk : k = k'
      · have hnone : es.lookup k = none := by
          rw [Option.eq_none_iff_forall_ne_some]
          intro w hw
          have hself := hlt _ ((lookup_eq_some_iff hes).mp hw)
          rw [hk, Std.compare_self] at hself
          cases hself
        rw [hnone, if_pos hk, if_pos hk]
        rfl
      · rw [if_neg hk, if_neg hk]

theorem get?_union (m other : SortedMap α β) (k : α) :
    (m.union other).get? k = (other.get? k).or (m.get? k) :=
  get?_foldl_insert other.sorted m k

omit [Std.TransOrd α] in
theorem mem_keys_iff {m : SortedMap α β} {k : α} : k ∈ m.keys ↔ ∃ v, m.get? k = some v := by
  simp only [keys, List.mem_map, Prod.exists, exists_and_right, exists_eq_right,
    get?_eq_some_iff]

omit [Std.TransOrd α] [DecidableEq α] in
theorem nodup_entries (m : SortedMap α β) : m.entries.Nodup := by
  refine m.sorted.imp fun {a b} hlt => ?_
  rintro rfl
  rw [Std.compare_self] at hlt
  cases hlt

theorem eq_of_get? {m n : SortedMap α β} (h : ∀ k, m.get? k = n.get? k) : m = n := by
  have hmem : ∀ e, e ∈ m.entries ↔ e ∈ n.entries := fun e => by
    rw [← get?_eq_some_iff (m := m), ← get?_eq_some_iff (m := n), h]
  have hperm := (List.perm_ext_iff_of_nodup m.nodup_entries n.nodup_entries).mpr hmem
  have hentries : m.entries = n.entries := by
    refine hperm.eq_of_pairwise (fun a b _ _ hab hba => ?_) m.sorted n.sorted
    rw [Std.OrientedCmp.gt_of_lt hab] at hba
    cases hba
  obtain ⟨es, _⟩ := m
  obtain rfl := hentries
  rfl

section Inclusion

variable {m n : SortedMap α β} (h : ∀ k v, n.get? k = some v → m.get? k = some v)
include h

omit [Std.TransOrd α] in
theorem subperm_entries : n.entries.Subperm m.entries :=
  n.nodup_entries.subperm fun e he =>
    get?_eq_some_iff.mp (h e.1 e.2 (get?_eq_some_iff.mpr he))

omit [Std.TransOrd α] in
theorem size_le : n.size ≤ m.size := (subperm_entries h).length_le

omit [Std.TransOrd α] in
theorem size_lt_iff : n.size < m.size ↔ ∃ k v, m.get? k = some v ∧ n.get? k ≠ some v := by
  constructor
  · intro hlt
    by_contra hnone
    push Not at hnone
    exact absurd (size_le hnone) (Nat.not_le.mpr hlt)
  · rintro ⟨k, v, hm, hn⟩
    refine Nat.lt_of_not_le fun hle => hn ?_
    have hperm := (subperm_entries h).perm_of_length_le hle
    exact get?_eq_some_iff.mpr (hperm.mem_iff.mpr (get?_eq_some_iff.mp hm))

end Inclusion

end SortedMap
end BuildAnalysis
