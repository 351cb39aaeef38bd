import Mathlib.Data.List.Chain
import Mathlib.Data.List.Nodup
import Mathlib.Logic.Relation
import BuildAnalysis.Engine.Cycle
import BuildAnalysis.Proofs.Collection.Listing

/-!
# The cycle search is sound and complete

A cycle that the walk reports is a closed chain of distinct waiting keys, each of which asks for the
next. Where there is a cycle, one is reported: the walk is done with a key only after all that the
key asks for, so that the keys it is done with lie on no cycle, and in the end it is done with all
waiting keys. In particular one is reported if every waiting key asks for a waiting key.
-/
namespace BuildAnalysis.Engine.Cycle

variable {K : Type}

/-- The keys are distinct, and each is related to the next and the last to the first. -/
structure Closed (R : K → K → Prop) (ks : List K) : Prop where
  nonempty : ks ≠ []
  nodup : ks.Nodup
  chain : List.IsChain R (ks ++ ks.take 1)

theorem Closed.imp {R R' : K → K → Prop} {ks : List K} (h : Closed R ks)
    (himp : ∀ k l, R k l → R' k l) : Closed R' ks :=
  ⟨h.nonempty, h.nodup, h.chain.imp himp⟩

theorem Closed.exists_next {R : K → K → Prop} {ks : List K} (h : Closed R ks) :
    ∀ k ∈ ks, ∃ l, R k l := by
  intro k hk
  obtain ⟨before, after, rfl⟩ := List.append_of_mem hk
  have hchain := h.chain
  rw [List.append_assoc, List.cons_append] at hchain
  have hrest := hchain.right_of_append
  cases hnext : after ++ (before ++ k :: after).take 1 with
  | nil =>
      have hlast : (before ++ k :: after).take 1 = [] := (List.append_eq_nil_iff.mp hnext).2
      cases before <;> cases hlast
  | cons l rest =>
      rw [hnext] at hrest
      exact ⟨l, (List.isChain_cons_cons.mp hrest).1⟩

/-- A closed chain leads from its first key back to that key. -/
theorem Closed.exists_transGen {R : K → K → Prop} {ks : List K} (h : Closed R ks) :
    ∃ k, Relation.TransGen R k k := by
  obtain ⟨hne, -, hchain⟩ := h
  cases ks with
  | nil => exact absurd rfl hne
  | cons k ks =>
      have hpath : List.IsChain (Relation.TransGen R) (k :: (ks ++ [k])) :=
        hchain.imp fun _ _ => Relation.TransGen.single
      exact ⟨k, hpath.rel_cons (List.mem_append_right ks List.mem_cons_self)⟩

variable [DecidableEq K] {waiting : List (K × List K)}

/-- A waiting key asked for another. -/
def Asks (waiting : List (K × List K)) (k l : K) : Prop :=
  ∃ next, Listing.find? k waiting = some next ∧ l ∈ next

theorem exists_dropWhile_eq_cons {path : List K} {k : K} (hk : k ∈ path) :
    ∃ rest, path.dropWhile (fun x => x ≠ k) = k :: rest := by
  induction path with
  | nil => cases hk
  | cons l path ih =>
      by_cases hl : l = k
      · exact ⟨path, by simp [hl]⟩
      · obtain ⟨rest, hrest⟩ := ih ((List.mem_cons.mp hk).resolve_left (Ne.symm hl))
        exact ⟨rest, by simpa [hl] using hrest⟩

/-- A path that returns to one of its keys closes a cycle. -/
theorem closed_dropWhile {R : K → K → Prop} {path : List K} {k : K} (hk : k ∈ path)
    (nodup : path.Nodup) (chain : List.IsChain R (path ++ [k])) :
    Closed R (path.dropWhile fun x => x ≠ k) := by
  obtain ⟨rest, hrest⟩ := exists_dropWhile_eq_cons hk
  obtain ⟨before, hpath⟩ := List.dropWhile_suffix (l := path) fun x => decide (x ≠ k)
  rw [hrest] at hpath ⊢
  have hchain : List.IsChain R (k :: rest ++ [k]) := by
    rw [← hpath, List.append_assoc] at chain
    exact chain.right_of_append
  exact ⟨List.cons_ne_nil _ _, (hpath ▸ nodup).of_append_right, hchain⟩

/-- What a walk along a path of askers reports is a cycle. -/
theorem walk_eq_error {path keys done ks : List K}
    (h : walk waiting path keys done = .error ks) (nodup : path.Nodup)
    (chain : ∀ k ∈ keys, List.IsChain (Asks waiting) (path ++ [k])) :
    Closed (Asks waiting) ks := by
  fun_induction walk waiting path keys done with
  | case1 => cases h
  | case2 path done k keys hk =>
      cases h
      exact closed_dropWhile hk nodup (chain k List.mem_cons_self)
  | case3 path done k keys hpath hdone ih =>
      exact ih h nodup fun l hl => chain l (List.mem_cons_of_mem _ hl)
  | case4 path done k keys hpath hdone hfind ih =>
      exact ih h nodup fun l hl => chain l (List.mem_cons_of_mem _ hl)
  | case5 path done k keys hpath hdone next hfind cycle hwalk ih =>
      cases h
      refine ih hwalk (List.nodup_append_comm.mp (List.nodup_cons.mpr ⟨hpath, nodup⟩)) ?_
      intro l hl
      refine (chain k List.mem_cons_self).append (List.isChain_singleton l) ?_
      have hasks : Asks waiting k l := ⟨next, hfind, hl⟩
      simpa using hasks
  | case6 path done k keys hpath hdone next hfind done' hwalk ih₁ ih₂ =>
      exact ih₂ h nodup fun l hl => chain l (List.mem_cons_of_mem _ hl)

/-- Keys in an order in which each comes after all that it asks for. -/
inductive Ordered (waiting : List (K × List K)) : List K → Prop
  | nil : Ordered waiting []
  | snoc {done : List K} {k : K} (h : Ordered waiting done)
      (hk : ∀ l, Asks waiting k l → l ∈ done) : Ordered waiting (done ++ [k])

namespace Ordered

variable {done : List K} {k l : K}

theorem mem_of_asks (h : Ordered waiting done) (hk : k ∈ done) (hkl : Asks waiting k l) :
    l ∈ done := by
  induction h with
  | nil => cases hk
  | @snoc done m _ hm ih =>
      rcases List.mem_append.mp hk with hk | hk
      · exact List.mem_append_left _ (ih hk)
      · obtain rfl := List.mem_singleton.mp hk
        exact List.mem_append_left _ (hm l hkl)

theorem mem_of_transGen (h : Ordered waiting done) (hk : k ∈ done)
    (hkl : Relation.TransGen (Asks waiting) k l) : l ∈ done := by
  induction hkl with
  | single hkl => exact h.mem_of_asks hk hkl
  | tail _ hml hm => exact h.mem_of_asks hm hml

theorem not_transGen (h : Ordered waiting done) (hk : k ∈ done) :
    ¬ Relation.TransGen (Asks waiting) k k := by
  induction h with
  | nil => cases hk
  | @snoc done m hdone hm ih =>
      rcases List.mem_append.mp hk with hk | hk
      · exact ih hk
      · -- What the last key leads to is in the order before it, and so would be the key itself.
        obtain rfl := List.mem_singleton.mp hk
        intro hkk
        obtain ⟨l, hkl, hlk⟩ := Relation.TransGen.head'_iff.mp hkk
        rcases Relation.reflTransGen_iff_eq_or_transGen.mp hlk with rfl | hlk
        · exact ih (hm _ hkl) hkk
        · exact ih (hdone.mem_of_transGen (hm l hkl) hlk) hkk

end Ordered

/-- A walk that finds no cycle puts the keys that it is done with into an order. -/
theorem walk_eq_ok {path keys done done' : List K} (h : walk waiting path keys done = .ok done')
    (ordered : Ordered waiting done) : Ordered waiting done' ∧ done ⊆ done' ∧ keys ⊆ done' := by
  fun_induction walk waiting path keys done generalizing done' with
  | case1 path done =>
      cases h
      exact ⟨ordered, List.Subset.refl _, List.nil_subset _⟩
  | case2 => cases h
  | case3 path done k keys hpath hdone ih =>
      obtain ⟨hordered, hsub, hkeys⟩ := ih h ordered
      exact ⟨hordered, hsub, List.cons_subset.mpr ⟨hsub hdone, hkeys⟩⟩
  | case4 path done k keys hpath hdone hfind ih =>
      have hk : Ordered waiting (done ++ [k]) := by
        refine ordered.snoc fun l hl => ?_
        obtain ⟨next, hnext, -⟩ := hl
        rw [hfind] at hnext
        cases hnext
      obtain ⟨hordered, hsub, hkeys⟩ := ih h hk
      exact ⟨hordered, fun l hl => hsub (List.mem_append_left _ hl),
        List.cons_subset.mpr ⟨hsub (List.mem_append_right _ List.mem_cons_self), hkeys⟩⟩
  | case5 => cases h
  | case6 path done k keys hpath hdone next hfind done₁ hwalk ih₁ ih₂ =>
      obtain ⟨hordered₁, hsub₁, hnext⟩ := ih₁ hwalk ordered
      have hk : Ordered waiting (done₁ ++ [k]) := by
        refine hordered₁.snoc fun l hl => ?_
        obtain ⟨next', hnext', hl⟩ := hl
        obtain rfl := Option.some.inj (hfind.symm.trans hnext')
        exact hnext hl
      obtain ⟨hordered, hsub, hkeys⟩ := ih₂ h hk
      exact ⟨hordered, fun l hl => hsub (List.mem_append_left _ (hsub₁ hl)),
        List.cons_subset.mpr ⟨hsub (List.mem_append_right _ List.mem_cons_self), hkeys⟩⟩

/-- Every waiting key asks for a waiting key. -/
def Stuck (waiting : List (K × List K)) : Prop :=
  ∀ k next, Listing.find? k waiting = some next →
    ∃ l ∈ next, Listing.find? l waiting ≠ none

theorem Ordered.find?_eq_none {done : List K} (h : Ordered waiting done) (stuck : Stuck waiting) :
    ∀ k ∈ done, Listing.find? k waiting = none := by
  induction h with
  | nil => simp
  | @snoc done m _ hm ih =>
      refine List.forall_mem_append.mpr ⟨ih, List.forall_mem_singleton.mpr ?_⟩
      by_contra hwaits
      obtain ⟨next, hnext⟩ := Option.ne_none_iff_exists'.mp hwaits
      obtain ⟨l, hl, hwaits'⟩ := stuck m next hnext
      exact hwaits' (ih l (hm l ⟨next, hnext, hl⟩))

theorem find?_ne_none_of_mem {e : K × List K} (h : e ∈ waiting) :
    Listing.find? e.1 waiting ≠ none := by
  induction waiting with
  | nil => cases h
  | cons e' waiting ih =>
      simp only [Listing.find?]
      split
      next => exact Option.some_ne_none _
      next hne =>
        rcases List.mem_cons.mp h with rfl | h
        · exact absurd rfl hne
        · exact ih h

theorem closed_of_first? {ks : List K} (h : first? waiting = some ks) :
    Closed (Asks waiting) ks := by
  unfold first? at h
  split at h
  next cycle hwalk =>
    cases h
    exact walk_eq_error hwalk List.nodup_nil fun k _ => List.isChain_singleton k
  next => cases h

/-- A search that finds nothing has put all waiting keys into an order. -/
theorem ordered_of_first? (h : first? waiting = none) :
    ∃ done, Ordered waiting done ∧ ∀ e ∈ waiting, e.1 ∈ done := by
  unfold first? at h
  split at h
  next => cases h
  next done hwalk =>
    obtain ⟨hordered, -, hkeys⟩ := walk_eq_ok hwalk .nil
    exact ⟨done, hordered, fun e he => hkeys (List.mem_map_of_mem he)⟩

/-- Stuck keys have a cycle among them. -/
theorem isSome_first? (stuck : Stuck waiting) (nonempty : waiting ≠ []) :
    (first? waiting).isSome = true := by
  by_contra hnone
  obtain ⟨done, hordered, hmem⟩ := ordered_of_first? (Option.not_isSome_iff_eq_none.mp hnone)
  obtain ⟨e, he⟩ := List.exists_mem_of_ne_nil waiting nonempty
  exact find?_ne_none_of_mem he (hordered.find?_eq_none stuck e.1 (hmem e he))

/-- A cycle is found exactly if some waiting key leads back to itself, and then what is found is a
cycle of distinct keys, each of which asks for the next and the last for the first. -/
theorem first?_finds_cycles (waiting : List (K × List K)) :
    ((first? waiting).isSome = true ↔ ∃ k, Relation.TransGen (Asks waiting) k k) ∧
      ∀ ks, first? waiting = some ks → Closed (Asks waiting) ks := by
  refine ⟨⟨fun hsome => ?_, ?_⟩, fun ks => closed_of_first?⟩
  · obtain ⟨ks, hks⟩ := Option.isSome_iff_exists.mp hsome
    exact (closed_of_first? hks).exists_transGen
  · rintro ⟨k, hk⟩
    by_contra hnone
    obtain ⟨done, hordered, hmem⟩ := ordered_of_first? (Option.not_isSome_iff_eq_none.mp hnone)
    obtain ⟨l, ⟨next, hnext, -⟩, -⟩ := Relation.TransGen.head'_iff.mp hk
    exact hordered.not_transGen (hmem (k, next) (Listing.mem_of_find? hnext)) hk

/-- A key that leads into a cycle of two others, one of which asks for a key that is not waiting;
without the way back there is no cycle. -/
theorem first?_finds_cycles_behind :
    (first? [(1, [2]), (2, [3]), (3, [4, 2])] = some [2, 3] ∧
      Closed (Asks [(1, [2]), (2, [3]), (3, [4, 2])]) [2, 3]) ∧
    ¬ ∃ k, Relation.TransGen (Asks [(1, [2]), (2, [3]), (3, [4])]) k k := by
  have hfound : first? [(1, [2]), (2, [3]), (3, [4, 2])] = some [2, 3] := by
    simp [first?, walk, Listing.find?]
  have hnone : first? [(1, [2]), (2, [3]), (3, [4])] = none := by
    simp [first?, walk, Listing.find?]
  refine ⟨⟨hfound, (first?_finds_cycles _).2 _ hfound⟩, fun hcycle => ?_⟩
  have hsome := (first?_finds_cycles _).1.mpr hcycle
  rw [hnone] at hsome
  cases hsome

theorem walk_of_mem {path keys done : List K} {k : K} (hk : k ∈ path) :
    walk waiting path (k :: keys) done = .error (path.dropWhile fun x => x ≠ k) := by
  rw [walk, dif_pos hk]

theorem walk_of_error {path keys done next ks : List K} {k : K} (hpath : k ∉ path)
    (hdone : k ∉ done) (hfind : Listing.find? k waiting = some next)
    (hnext : walk waiting (path ++ [k]) next done = .error ks) :
    walk waiting path (k :: keys) done = .error ks := by
  rw [walk, dif_neg hpath, if_neg hdone]
  split
  next hnone => rw [hfind] at hnone; cases hnone
  next next' hsome =>
    obtain rfl : next = next' := Option.some.inj (hfind.symm.trans hsome)
    rw [hnext]

/-- Two keys that ask for each other. -/
theorem first?_pair {k l : K} (h : k ≠ l) : first? [(k, [l]), (l, [k])] = some [k, l] := by
  have hback : walk [(k, [l]), (l, [k])] ([] ++ [k] ++ [l]) [k] [] = .error [k, l] := by
    rw [walk_of_mem (by simp)]
    simp
  have hahead : walk [(k, [l]), (l, [k])] ([] ++ [k]) [l] [] = .error [k, l] :=
    walk_of_error (by simpa using h.symm) List.not_mem_nil (by simp [Listing.find?, h]) hback
  have hfirst : walk [(k, [l]), (l, [k])] [] [k, l] [] = .error [k, l] :=
    walk_of_error List.not_mem_nil List.not_mem_nil (by simp [Listing.find?]) hahead
  simp [first?, hfirst]

end BuildAnalysis.Engine.Cycle
