import BuildAnalysis.Collection.Listing

/-!
# Members of listings

What adding items to a listing and putting entries into a keyed listing does to their members and
to the order of these.
-/
namespace BuildAnalysis.Listing

universe u v
variable {α : Type u} {β : Type v} [DecidableEq α]

@[simp] theorem mem_add {xs : List α} {x y : α} : y ∈ add xs x ↔ y ∈ xs ∨ y = x := by
  unfold add
  split
  next hx =>
    constructor
    · exact .inl
    · rintro (hy | rfl)
      · exact hy
      · exact hx
  next => simp

@[simp] theorem mem_addAll {xs ys : List α} {x : α} : x ∈ addAll xs ys ↔ x ∈ xs ∨ x ∈ ys := by
  unfold addAll
  induction ys generalizing xs with
  | nil => simp
  | cons y ys ih =>
      rw [List.foldl_cons, ih, mem_add, List.mem_cons, or_assoc]

@[simp] theorem mem_distinct {xs : List α} {x : α} : x ∈ distinct xs ↔ x ∈ xs := by
  simp [distinct]

theorem nodup_add {xs : List α} (h : xs.Nodup) (x : α) : (add xs x).Nodup := by
  unfold add
  split
  next => exact h
  next hx =>
    refine List.nodup_append.mpr ⟨h, by simp, fun a ha b hb => ?_⟩
    rw [List.mem_singleton.mp hb]
    rintro rfl
    exact hx ha

theorem nodup_addAll {xs : List α} (h : xs.Nodup) (ys : List α) : (addAll xs ys).Nodup := by
  unfold addAll
  induction ys generalizing xs with
  | nil => exact h
  | cons y ys ih => exact ih (nodup_add h y)

theorem addAll_append (xs ys zs : List α) : addAll xs (ys ++ zs) = addAll (addAll xs ys) zs := by
  simp [addAll]

theorem addAll_flatMap {γ : Type v} (f : γ → List α) (cs : List γ) (xs : List α) :
    addAll xs (cs.flatMap f) = cs.foldl (fun xs c => addAll xs (f c)) xs := by
  induction cs generalizing xs with
  | nil => rfl
  | cons c cs ih => rw [List.flatMap_cons, addAll_append, ih, List.foldl_cons]

theorem prefix_add (xs : List α) (x : α) : xs <+: add xs x := by
  unfold add
  split
  next => exact List.prefix_refl xs
  next => exact List.prefix_append xs [x]

theorem prefix_addAll (xs ys : List α) : xs <+: addAll xs ys := by
  unfold addAll
  induction ys generalizing xs with
  | nil => exact List.prefix_refl xs
  | cons y ys ih => exact (prefix_add xs y).trans (ih (add xs y))

theorem addAll_of_nodup {xs ys : List α} (h : (xs ++ ys).Nodup) : addAll xs ys = xs ++ ys := by
  induction ys generalizing xs with
  | nil => exact (List.append_nil xs).symm
  | cons y ys ih =>
      have hy : y ∉ xs := fun hmem =>
        (List.nodup_append.mp h).2.2 y hmem y List.mem_cons_self rfl
      have hstep : addAll xs (y :: ys) = addAll (xs ++ [y]) ys := by
        change addAll (add xs y) ys = _
        rw [add, if_neg hy]
      rw [hstep, ih (by simpa using h), List.append_assoc, List.singleton_append]

theorem add_of_mem {xs : List α} {x : α} (h : x ∈ xs) : add xs x = xs := if_pos h

theorem addAll_of_subset {xs ys : List α} (h : ∀ y ∈ ys, y ∈ xs) : addAll xs ys = xs := by
  induction ys with
  | nil => rfl
  | cons y ys ih =>
      obtain ⟨hy, hys⟩ := List.forall_mem_cons.mp h
      change addAll (add xs y) ys = xs
      rw [add_of_mem hy, ih hys]

theorem addAll_add (xs ys : List α) (x : α) : addAll xs (add ys x) = add (addAll xs ys) x := by
  by_cases hx : x ∈ ys
  · rw [add_of_mem hx, add_of_mem (mem_addAll.mpr (.inr hx))]
  · rw [add, if_neg hx, addAll_append]
    rfl

/-- Items may be gathered in a listing of their own before they are added. -/
theorem addAll_addAll (xs ys zs : List α) :
    addAll xs (addAll ys zs) = addAll (addAll xs ys) zs := by
  induction zs generalizing ys with
  | nil => rfl
  | cons z zs ih =>
      have hys : addAll ys (z :: zs) = addAll (add ys z) zs := rfl
      have hxs : addAll (addAll xs ys) (z :: zs) = addAll (add (addAll xs ys) z) zs := rfl
      rw [hys, hxs, ih, addAll_add]

theorem addAll_eq_append_eraseDups (xs ys : List α) :
    addAll xs ys = xs ++ (ys.filter fun y => y ∉ xs).eraseDups := by
  induction ys generalizing xs with
  | nil => exact (List.append_nil xs).symm
  | cons y ys ih =>
      have hstep : addAll xs (y :: ys) = addAll (add xs y) ys := rfl
      rw [hstep, ih]
      by_cases hy : y ∈ xs
      · rw [add_of_mem hy, List.filter_cons_of_neg (by simpa using hy)]
      · have hrest : ys.filter (fun z => z ∉ xs ++ [y]) =
            (ys.filter fun z => z ∉ xs).filter fun z => !z == y := by
          rw [List.filter_filter]
          refine List.filter_congr fun z _ => ?_
          by_cases hz : z = y <;> simp [hz]
        rw [add, if_neg hy, List.filter_cons_of_pos (by simpa using hy), List.eraseDups_cons, hrest,
          List.append_assoc, List.singleton_append]

/-- The listing of some items keeps the first occurrence of each. -/
theorem distinct_eq_eraseDups (xs : List α) : distinct xs = xs.eraseDups := by
  have hall : xs.filter (fun y => y ∉ ([] : List α)) = xs :=
    List.filter_eq_self.mpr fun y _ => decide_eq_true List.not_mem_nil
  rw [distinct, addAll_eq_append_eraseDups, hall, List.nil_append]

/-- Taking each item once changes nothing just if there is no repetition. -/
theorem distinct_eq_self_iff {xs : List α} : distinct xs = xs ↔ xs.Nodup := by
  constructor
  · intro h
    rw [← h]
    exact nodup_addAll List.nodup_nil xs
  · intro h
    exact addAll_of_nodup (show ([] ++ xs).Nodup from h)

theorem mem_of_find? {k : α} {v : β} {es : List (α × β)} (h : find? k es = some v) :
    (k, v) ∈ es := by
  induction es with
  | nil => cases h
  | cons e es ih =>
      simp only [find?] at h
      split at h
      next hk =>
        obtain rfl := Option.some.inj h
        exact hk ▸ List.mem_cons_self
      next => exact List.mem_cons_of_mem _ (ih h)

theorem mem_put {k : α} {v : β} {es : List (α × β)} {e : α × β} (h : e ∈ put k v es) :
    e = (k, v) ∨ e ∈ es := by
  induction es with
  | nil => exact .inl (List.mem_singleton.mp h)
  | cons e' es ih =>
      simp only [put] at h
      split at h
      · rcases List.mem_cons.mp h with h | h
        · exact .inl h
        · exact .inr (List.mem_cons_of_mem _ h)
      · rcases List.mem_cons.mp h with h | h
        · exact .inr (h ▸ List.mem_cons_self)
        · exact (ih h).imp_right (List.mem_cons_of_mem _)

theorem find?_map (f : α → β → β) (k : α) (es : List (α × β)) :
    find? k (es.map fun e => (e.1, f e.1 e.2)) = (find? k es).map (f k) := by
  induction es with
  | nil => rfl
  | cons e es ih =>
      simp only [List.map_cons, find?]
      split
      next h => rw [h]; rfl
      next => exact ih

theorem find?_filter_key (p : α → Bool) (k : α) (es : List (α × β)) :
    find? k (es.filter fun e => p e.1) = if p k = true then find? k es else none := by
  induction es with
  | nil => simp [find?]
  | cons e es ih =>
      rw [List.filter_cons]
      by_cases hk : e.1 = k
      · subst hk
        split
        next hp => simp [find?]
        next hp => rw [ih, if_neg hp]
      · split
        next => simpa [find?, hk] using ih
        next => simpa [find?, hk] using ih

theorem find?_filter (k l : α) (es : List (α × β)) :
    find? k (es.filter fun e => e.1 ≠ l) = if k = l then none else find? k es := by
  induction es with
  | nil => simp [find?]
  | cons e es ih =>
      rw [List.filter_cons]
      by_cases hl : e.1 = l
      · rw [if_neg (by simpa using hl), ih, find?, hl]
        split
        next => rfl
        next hk => rw [if_neg fun h => hk h.symm]
      · rw [if_pos (by simpa using hl), find?, find?, ih]
        split
        next hk => rw [if_neg (hk ▸ hl)]
        next => rfl

theorem find?_put (k l : α) (v : β) (es : List (α × β)) :
    find? k (put l v es) = if l = k then some v else find? k es := by
  induction es with
  | nil => rfl
  | cons e es ih =>
      unfold put
      split
      next he =>
        by_cases hl : l = k
        · simp [find?, hl]
        · simp [find?, he, hl]
      next he =>
        by_cases hk : e.1 = k
        · have hl : ¬ l = k := fun hl => he (hk.trans hl.symm)
          simp [find?, hk, hl]
        · simp [find?, hk, ih]

theorem add_cons_of_ne {a k : α} (h : a ≠ k) (ks : List α) : add (a :: ks) k = a :: add ks k := by
  by_cases hk : k ∈ ks <;> simp [add, hk, Ne.symm h]

theorem put_map (g : α → β) (k : α) (ks : List α) :
    put k (g k) (ks.map fun a => (a, g a)) = (add ks k).map fun a => (a, g a) := by
  induction ks with
  | nil => simp [put, add]
  | cons a ks ih =>
      by_cases ha : a = k
      · simp [put, add, ha]
      · rw [add_cons_of_ne ha, List.map_cons, List.map_cons, ← ih, put, if_neg ha]

theorem ofEntries_map (g : α → β) (ks : List α) :
    ofEntries (ks.map fun a => (a, g a)) = (distinct ks).map fun a => (a, g a) := by
  have hfold : ∀ ks' : List α,
      (ks.map fun a => (a, g a)).foldl (fun m e => put e.1 e.2 m) (ks'.map fun a => (a, g a)) =
        (addAll ks' ks).map fun a => (a, g a) := by
    induction ks with
    | nil => exact fun ks' => rfl
    | cons a ks ih =>
        intro ks'
        rw [List.map_cons, List.foldl_cons, put_map, ih]
        rfl
  exact hfold []

theorem find?_ofEntries_map (g : α → β) (k : α) (ks : List α) :
    find? k (ofEntries (ks.map fun a => (a, g a))) = if k ∈ ks then some (g k) else none := by
  have hfind : ∀ ks : List α,
      find? k (ks.map fun a => (a, g a)) = if k ∈ ks then some (g k) else none := by
    intro ks
    induction ks with
    | nil => rfl
    | cons a ks ih =>
        by_cases ha : a = k
        · simp [find?, ha]
        · simp [find?, ha, ih, Ne.symm ha]
  rw [ofEntries_map, hfind]
  simp only [mem_distinct]

theorem mem_ofEntries {es : List (α × β)} {e : α × β} (h : e ∈ ofEntries es) : e ∈ es := by
  have hfold : ∀ (es m : List (α × β)), e ∈ es.foldl (fun m e => put e.1 e.2 m) m →
      e ∈ es ∨ e ∈ m := by
    intro es
    induction es with
    | nil => exact fun m he => .inr he
    | cons e' es ih =>
        intro m he
        rcases ih _ he with hes | hput
        · exact .inl (List.mem_cons_of_mem _ hes)
        · rcases mem_put hput with rfl | hm
          · exact .inl List.mem_cons_self
          · exact .inr hm
  exact (hfold es [] h).resolve_right List.not_mem_nil

theorem find?_eq_some_iff {k : α} {v : β} {es : List (α × β)} (nodup : (es.map Prod.fst).Nodup) :
    find? k es = some v ↔ (k, v) ∈ es := by
  refine ⟨mem_of_find?, fun h => ?_⟩
  induction es with
  | nil => cases h
  | cons e es ih =>
      obtain ⟨hnew, nodup⟩ := List.nodup_cons.mp nodup
      rcases List.mem_cons.mp h with rfl | h
      · exact if_pos rfl
      · have hk : e.1 ≠ k := fun hk => hnew (hk ▸ List.mem_map_of_mem h)
        rw [find?, if_neg hk, ih nodup h]

theorem map_fst_put (k : α) (v : β) (es : List (α × β)) :
    (put k v es).map Prod.fst = add (es.map Prod.fst) k := by
  induction es with
  | nil => simp [put, add]
  | cons e es ih =>
      by_cases he : e.1 = k
      · simp [put, add, he]
      · rw [List.map_cons, add_cons_of_ne he, ← ih, put, if_neg he, List.map_cons]

/-- A listing has its keys in the order in which they were first put. -/
theorem map_fst_ofEntries (es : List (α × β)) :
    (ofEntries es).map Prod.fst = distinct (es.map Prod.fst) := by
  have hfold : ∀ m : List (α × β), (es.foldl (fun m e => put e.1 e.2 m) m).map Prod.fst =
      addAll (m.map Prod.fst) (es.map Prod.fst) := by
    induction es with
    | nil => exact fun m => rfl
    | cons e es ih =>
        intro m
        rw [List.foldl_cons, ih, map_fst_put]
        rfl
  exact hfold []

theorem nodup_ofEntries (es : List (α × β)) : ((ofEntries es).map Prod.fst).Nodup := by
  rw [map_fst_ofEntries]
  exact nodup_addAll .nil _

section Change

variable {γ : Type} (g : β → γ)

theorem put_map_snd (k : α) (v : β) (es : List (α × β)) :
    put k (g v) (es.map fun e => (e.1, g e.2)) = (put k v es).map fun e => (e.1, g e.2) := by
  induction es with
  | nil => rfl
  | cons e es ih =>
      by_cases he : e.1 = k
      · simp [put, he]
      · simp [put, he, ih]

theorem ofEntries_map_snd (es : List (α × β)) :
    ofEntries (es.map fun e => (e.1, g e.2)) = (ofEntries es).map fun e => (e.1, g e.2) := by
  have hfold : ∀ m : List (α × β),
      (es.map fun e => (e.1, g e.2)).foldl (fun m e => put e.1 e.2 m)
          (m.map fun e => (e.1, g e.2)) =
        (es.foldl (fun m e => put e.1 e.2 m) m).map fun e => (e.1, g e.2) := by
    induction es with
    | nil => exact fun m => rfl
    | cons e es ih =>
        intro m
        have hput := put_map_snd g e.1 e.2 m
        rw [List.map_cons, List.foldl_cons, List.foldl_cons, ← ih, ← hput]
  exact hfold []

end Change

theorem filter_put (p : α → Bool) (k : α) (v : β) (es : List (α × β)) :
    (put k v es).filter (fun e => p e.1) =
      if p k = true then put k v (es.filter fun e => p e.1) else es.filter fun e => p e.1 := by
  induction es with
  | nil => cases hp : p k <;> simp [put, hp]
  | cons e es ih =>
      by_cases he : e.1 = k
      · cases hp : p k <;> simp [put, he, hp]
      · cases hp : p k <;> cases hq : p e.1 <;> simp [put, he, ih, hp, hq]

theorem ofEntries_filter (p : α → Bool) (es : List (α × β)) :
    ofEntries (es.filter fun e => p e.1) = (ofEntries es).filter fun e => p e.1 := by
  have hfold : ∀ m : List (α × β),
      (es.filter fun e => p e.1).foldl (fun m e => put e.1 e.2 m) (m.filter fun e => p e.1) =
        (es.foldl (fun m e => put e.1 e.2 m) m).filter fun e => p e.1 := by
    induction es with
    | nil => exact fun m => rfl
    | cons e es ih =>
        intro m
        rw [List.foldl_cons, ← ih, filter_put]
        cases hp : p e.1 <;> simp [hp]
  exact hfold []

theorem ofEntries_cons {k : α} {v : β} {es : List (α × β)} (h : ∀ e ∈ es, e.1 ≠ k) :
    ofEntries ((k, v) :: es) = (k, v) :: ofEntries es := by
  have hfold : ∀ (es m : List (α × β)), (∀ e ∈ es, e.1 ≠ k) →
      es.foldl (fun m e => put e.1 e.2 m) ((k, v) :: m) =
        (k, v) :: es.foldl (fun m e => put e.1 e.2 m) m := by
    intro es
    induction es with
    | nil => exact fun m _ => rfl
    | cons e es ih =>
        intro m h
        obtain ⟨he, h⟩ := List.forall_mem_cons.mp h
        rw [List.foldl_cons, List.foldl_cons, put, if_neg (Ne.symm he), ih _ h]
  exact hfold es [] h

end BuildAnalysis.Listing
