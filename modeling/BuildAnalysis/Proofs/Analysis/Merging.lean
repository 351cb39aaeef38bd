import Mathlib.Data.List.Lattice
import BuildAnalysis.Analysis.Bundle
import BuildAnalysis.Proofs.Collection.Sorted

/-!
# Merging providers

Providers are merged only if no name is on both sides; then every name keeps its value. Otherwise
nothing is added, and the smallest name that is on both sides is reported. So a row of merges
succeeds exactly if no two of its members share a name, and it comes to the same in any order. This
is how the aspects of a dependency add their providers to its value.
-/
namespace BuildAnalysis

namespace Providers

variable {p q r m base : Providers} {ps qs : List Providers}

def Apart (p q : Providers) : Prop := p.names.Disjoint q.names

/-- All values of some providers, under their names, and no other values. -/
def Unites (ps : List Providers) (r : Providers) : Prop :=
  ∀ name v, r.get? name = some v ↔ ∃ p ∈ ps, p.get? name = some v

structure FirstShared (p q : Providers) (name : String) : Prop where
  left : name ∈ p.names
  right : name ∈ q.names
  least : ∀ other ∈ p.names, other ∈ q.names → (compare name other).isLE = true

theorem mem_names_iff {name : String} : name ∈ p.names ↔ ∃ v, p.get? name = some v :=
  SortedMap.mem_keys_iff

theorem contains_iff {name : String} : p.contains name = true ↔ name ∈ p.names := by
  rw [mem_names_iff]
  exact Option.isSome_iff_exists

theorem Apart.symm (h : Apart p q) : Apart q p := List.Disjoint.symm h

theorem Unites.unique (hr : Unites ps r) (hm : Unites ps m) : r = m := by
  have hentries : r.entries = m.entries := SortedMap.eq_of_get? fun name =>
    Option.ext fun v => (hr name v).trans (hm name v).symm
  obtain ⟨entries⟩ := r
  obtain rfl : entries = m.entries := hentries
  rfl

theorem Unites.perm (h : ps.Perm qs) (hr : Unites ps r) : Unites qs r := fun name v => by
  simp only [hr name v, h.mem_iff]

/-! ### One merge -/

theorem firstShared_of_find? {name : String} (h : q.names.find? p.contains = some name) :
    FirstShared p q name := by
  obtain ⟨hshared, before, later, hnames, hbefore⟩ := List.find?_eq_some_iff_append.mp h
  have hright : name ∈ q.names := by
    rw [hnames]
    exact List.mem_append_right _ List.mem_cons_self
  refine ⟨contains_iff.mp hshared, hright, fun other hleft hother => ?_⟩
  have hsorted : q.names.Pairwise fun a b => compare a b = .lt :=
    List.pairwise_map.mpr q.entries.sorted
  rw [hnames] at hother hsorted
  rcases List.mem_append.mp hother with hmem | hmem
  · have hnot := hbefore other hmem
    rw [contains_iff.mpr hleft] at hnot
    cases hnot
  · rcases List.mem_cons.mp hmem with heq | hmem
    · rw [heq, Std.compare_self]
      rfl
    · have hlater := (List.pairwise_cons.mp (List.pairwise_append.mp hsorted).2.1).1 other hmem
      rw [hlater]
      rfl

theorem apart_of_find? (h : q.names.find? p.contains = none) : Apart p q := by
  intro name hleft hright
  have hnot := List.find?_eq_none.mp h name hright
  exact hnot (contains_iff.mpr hleft)

theorem unites_union (h : Apart p q) : Unites [p, q] ⟨p.entries.union q.entries⟩ := by
  intro name v
  have hget : get? ⟨p.entries.union q.entries⟩ name = (q.get? name).or (p.get? name) :=
    SortedMap.get?_union p.entries q.entries name
  rw [hget]
  cases hq : q.get? name with
  | none => simp [hq]
  | some w =>
      have hp : ∀ u, p.get? name ≠ some u := fun u hu =>
        h (mem_names_iff.mpr ⟨u, hu⟩) (mem_names_iff.mpr ⟨w, hq⟩)
      simp [hq, hp]

theorem foldl_put (es : List (String × Provided)) (p : Providers) :
    es.foldl (fun p e => p.put e.1 e.2) p =
      ⟨es.foldl (fun m e => m.insert e.1 e.2) p.entries⟩ := by
  induction es generalizing p with
  | nil => rfl
  | cons e es ih => exact ih (p.put e.1 e.2)

theorem run_puts (es : List (String × Provided)) (p : Providers) :
    (es.forM fun e => modify fun p => p.put e.1 e.2 :
      ExceptT RepeatedProvider (StateM Providers) PUnit).run.run p =
      (.ok (), es.foldl (fun p e => p.put e.1 e.2) p) := by
  induction es generalizing p with
  | nil => rfl
  | cons e es ih => exact ih (p.put e.1 e.2)

theorem run_get_bind {α : Type} (g : Providers → ExceptT RepeatedProvider (StateM Providers) α)
    (p : Providers) : (get >>= g).run.run p = (g p).run.run p := rfl

/-- Merging in place stops before anything is added, or adds everything. -/
theorem run_absorb_cases (p q : Providers) :
    (∃ name, FirstShared p q name ∧ (absorb q).run.run p = (.error ⟨name⟩, p)) ∨
      (Apart p q ∧ ∃ m, Unites [p, q] m ∧ (absorb q).run.run p = (.ok (), m)) := by
  rw [absorb, run_get_bind]
  cases hfind : q.names.find? p.contains with
  | some name => exact .inl ⟨name, firstShared_of_find? hfind, rfl⟩
  | none =>
      have hapart := apart_of_find? hfind
      refine .inr ⟨hapart, _, unites_union hapart, ?_⟩
      rw [SortedMap.union, ← foldl_put]
      exact run_puts q.entries.entries p

theorem Apart.not_firstShared {name : String} (h : Apart p q) : ¬ FirstShared p q name :=
  fun hshared => h hshared.left hshared.right

theorem merge_eq_ok (h : p.merge q = .ok m) : Apart p q ∧ Unites [p, q] m := by
  unfold merge at h
  rcases run_absorb_cases p q with ⟨name, _, hrun⟩ | ⟨hapart, merged, hunites, hrun⟩
  · rw [hrun] at h
    cases h
  · rw [hrun] at h
    obtain rfl := Except.ok.inj h
    exact ⟨hapart, hunites⟩

theorem exists_merge (h : Apart p q) : ∃ m, p.merge q = .ok m := by
  unfold merge
  rcases run_absorb_cases p q with ⟨name, hshared, _⟩ | ⟨_, merged, _, hrun⟩
  · exact absurd hshared h.not_firstShared
  · exact ⟨merged, by rw [hrun]⟩

theorem run_absorb_eq_ok_iff : (absorb q).run.run p = (.ok (), m) ↔ p.merge q = .ok m := by
  unfold merge
  rcases (absorb q).run.run p with ⟨result, merged⟩
  cases result with
  | error e => exact iff_of_false (fun h => nomatch h) (fun h => nomatch h)
  | ok _ => exact ⟨fun h => congrArg _ (Prod.mk.inj h).2, fun h => congrArg _ (Except.ok.inj h)⟩

theorem run_absorb_eq_error {e : RepeatedProvider} (h : (absorb q).run.run p = (.error e, m)) :
    m = p ∧ FirstShared p q e.name := by
  rcases run_absorb_cases p q with ⟨name, hshared, hrun⟩ | ⟨_, _, _, hrun⟩
  · rw [hrun] at h
    cases h
    exact ⟨rfl, hshared⟩
  · rw [hrun] at h
    cases h

theorem merge_of_isEmpty (h : q.isEmpty = true) : p.merge q = .ok p := by
  obtain ⟨⟨entries, _⟩⟩ := q
  obtain rfl := List.isEmpty_iff.mp h
  rfl

/-! ### A row of merges -/

theorem Unites.mem_names_iff {name : String} (h : Unites ps r) :
    name ∈ r.names ↔ ∃ p ∈ ps, name ∈ p.names := by
  have hvalues := h name
  simp only [Providers.mem_names_iff, hvalues]
  exact ⟨fun ⟨v, p, hp, hv⟩ => ⟨p, hp, v, hv⟩, fun ⟨p, hp, v, hv⟩ => ⟨v, p, hp, hv⟩⟩

/-- What has been merged shares a name with others exactly if one of its parts does. -/
theorem Unites.apart_iff (h : Unites [p, q] m) : Apart m r ↔ Apart p r ∧ Apart q r := by
  have hnames : ∀ name, name ∈ m.names ↔ name ∈ p.names ∨ name ∈ q.names := fun name => by
    simp [h.mem_names_iff]
  simp only [Apart, List.Disjoint, hnames]
  grind

theorem Unites.cons_iff (h : Unites [p, q] m) : Unites (m :: ps) r ↔ Unites (p :: q :: ps) r := by
  have hvalues : ∀ name v,
      m.get? name = some v ↔ p.get? name = some v ∨ q.get? name = some v := fun name v => by
    simp [h name v]
  simp only [Unites, List.exists_mem_cons_iff, hvalues, or_assoc]

theorem pairwise_apart_iff (h : Unites [p, q] m) (hapart : Apart p q) :
    (m :: ps).Pairwise Apart ↔ (p :: q :: ps).Pairwise Apart := by
  simp only [List.pairwise_cons, List.forall_mem_cons, h.apart_iff, hapart, true_and]
  grind

theorem unites_singleton (p : Providers) : Unites [p] p := fun name v => by simp

theorem foldlM_merge_cons : (p :: ps).foldlM merge base = .ok r ↔
    ∃ m, base.merge p = .ok m ∧ ps.foldlM merge m = .ok r := by
  rw [List.foldlM_cons]
  cases base.merge p with
  | error e => exact iff_of_false (fun h => nomatch h) (fun ⟨_, h, _⟩ => nomatch h)
  | ok m => exact ⟨fun h => ⟨m, rfl, h⟩, fun ⟨_, hm, h⟩ => Except.ok.inj hm ▸ h⟩

theorem foldlM_merge_eq_ok (h : ps.foldlM merge base = .ok r) :
    (base :: ps).Pairwise Apart ∧ Unites (base :: ps) r := by
  induction ps generalizing base with
  | nil =>
      obtain rfl := Except.ok.inj h
      exact ⟨List.pairwise_singleton _ _, unites_singleton base⟩
  | cons p ps ih =>
      obtain ⟨m, hmerge, hrest⟩ := foldlM_merge_cons.mp h
      obtain ⟨hapart, hunites⟩ := merge_eq_ok hmerge
      obtain ⟨hpairs, hall⟩ := ih hrest
      exact ⟨(pairwise_apart_iff hunites hapart).mp hpairs, hunites.cons_iff.mp hall⟩

theorem exists_foldlM_merge (h : (base :: ps).Pairwise Apart) :
    ∃ r, ps.foldlM merge base = .ok r := by
  induction ps generalizing base with
  | nil => exact ⟨base, rfl⟩
  | cons p ps ih =>
      have hapart : Apart base p := (List.pairwise_cons.mp h).1 p List.mem_cons_self
      obtain ⟨m, hmerge⟩ := exists_merge hapart
      have hpairs := (pairwise_apart_iff (merge_eq_ok hmerge).2 hapart).mpr h
      obtain ⟨r, hrest⟩ := ih hpairs
      exact ⟨r, foldlM_merge_cons.mpr ⟨m, hmerge, hrest⟩⟩

/-- A row of merges comes to `r` exactly if no two members share a name and `r` unites them. -/
theorem foldlM_merge_eq_ok_iff : ps.foldlM merge base = .ok r ↔
    (base :: ps).Pairwise Apart ∧ Unites (base :: ps) r := by
  refine ⟨foldlM_merge_eq_ok, fun ⟨hpairs, hunites⟩ => ?_⟩
  obtain ⟨m, hm⟩ := exists_foldlM_merge hpairs
  rw [hm, (foldlM_merge_eq_ok hm).2.unique hunites]

theorem foldlM_merge_perm (h : ps.Perm qs) :
    ps.foldlM merge base = .ok r ↔ qs.foldlM merge base = .ok r := by
  have hperm : (base :: ps).Perm (base :: qs) := h.cons base
  rw [foldlM_merge_eq_ok_iff, foldlM_merge_eq_ok_iff, hperm.pairwise_iff fun h => h.symm]
  exact and_congr_right fun _ => ⟨.perm hperm, .perm hperm.symm⟩

/-! ### Merges in place -/

theorem run_forM_absorb_nil : ([].forM absorb).run.run base = (.ok (), base) := rfl

theorem run_forM_absorb_of_ok (h : (absorb p).run.run base = (.ok (), m)) :
    ((p :: ps).forM absorb).run.run base = (ps.forM absorb).run.run m := by
  rw [List.forM, ExceptT.run_bind, StateT.run_bind, h]
  rfl

theorem run_forM_absorb_of_error {e : RepeatedProvider}
    (h : (absorb p).run.run base = (.error e, m)) :
    ((p :: ps).forM absorb).run.run base = (.error e, m) := by
  rw [List.forM, ExceptT.run_bind, StateT.run_bind, h]
  rfl

theorem run_forM_absorb_eq_ok_iff :
    (ps.forM absorb).run.run base = (.ok (), r) ↔ ps.foldlM merge base = .ok r := by
  induction ps generalizing base with
  | nil => exact ⟨fun h => congrArg _ (Prod.mk.inj h).2, fun h => congrArg _ (Except.ok.inj h)⟩
  | cons p ps ih =>
      rw [foldlM_merge_cons]
      rcases hrun : (absorb p).run.run base with ⟨result, m⟩
      cases result with
      | error e =>
          rw [run_forM_absorb_of_error hrun]
          refine iff_of_false (fun h => nomatch h) fun ⟨_, hmerge, _⟩ => ?_
          rw [run_absorb_eq_ok_iff.mpr hmerge] at hrun
          cases hrun
      | ok _ =>
          rw [run_forM_absorb_of_ok hrun, ih]
          refine ⟨fun h => ⟨m, run_absorb_eq_ok_iff.mp hrun, h⟩, fun ⟨_, hmerge, h⟩ => ?_⟩
          rw [run_absorb_eq_ok_iff.mp hrun] at hmerge
          exact Except.ok.inj hmerge ▸ h

/-- A row of merges that fails has the failing merge in it, before which all were made and which
changes nothing. -/
theorem run_forM_absorb_eq_error {e : RepeatedProvider}
    (h : (ps.forM absorb).run.run base = (.error e, r)) : ∃ before q after,
      ps = before ++ q :: after ∧ (before.forM absorb).run.run base = (.ok (), r) ∧
      (absorb q).run.run r = (.error e, r) := by
  induction ps generalizing base with
  | nil => cases h
  | cons p ps ih =>
      rcases hrun : (absorb p).run.run base with ⟨result, m⟩
      cases result with
      | error _ =>
          rw [run_forM_absorb_of_error hrun] at h
          cases h
          obtain ⟨rfl, _⟩ := run_absorb_eq_error hrun
          exact ⟨[], p, ps, rfl, run_forM_absorb_nil, hrun⟩
      | ok _ =>
          rw [run_forM_absorb_of_ok hrun] at h
          obtain ⟨before, q, after, rfl, hbefore, hfails⟩ := ih h
          exact ⟨p :: before, q, after, rfl, (run_forM_absorb_of_ok hrun).trans hbefore, hfails⟩

end Providers

namespace EdgeSource

/-- What the aspects of a dependency provide, as far as they succeed. -/
def provided (results : List (Except Failure AspectValue)) : List Providers :=
  results.filterMap fun r => r.toOption.map AspectValue.providers

theorem provided_values (values : List AspectValue) :
    provided (values.map .ok) = values.map AspectValue.providers := by
  rw [provided, List.filterMap_map]
  exact congrFun List.filterMap_eq_map values

variable {s : EdgeSource} {t t' : AnalyzedTarget}
  {rs : List (AspectKey × Except Failure AspectValue)}

theorem withProviders_eq_ok_iff {u : AnalyzedTarget} {extra : Providers} :
    t.withProviders extra = .ok u ↔ ∃ m, t.providers.merge extra = .ok m ∧
      u = { t with value := { t.value with providers := m } } := by
  unfold AnalyzedTarget.withProviders
  split
  next hempty =>
    rw [Providers.merge_of_isEmpty hempty]
    constructor
    · intro h
      obtain rfl := Except.ok.inj h
      exact ⟨t.providers, rfl, rfl⟩
    · rintro ⟨_, hm, rfl⟩
      obtain rfl := Except.ok.inj hm
      rfl
  next =>
    cases t.providers.merge extra with
    | error e => exact iff_of_false (fun h => nomatch h) (fun ⟨_, h, _⟩ => nomatch h)
    | ok m =>
        constructor
        · intro h
          obtain rfl := Except.ok.inj h
          exact ⟨m, rfl, rfl⟩
        · rintro ⟨_, hm, rfl⟩
          obtain rfl := Except.ok.inj hm
          rfl

theorem addProviders_cons {k : AspectKey} {v : AspectValue} :
    s.addProviders t ((k, .ok v) :: rs) = .ok t' ↔
      ∃ u, t.withProviders v.providers = .ok u ∧ s.addProviders u rs = .ok t' := by
  rw [addProviders]
  cases t.withProviders v.providers with
  | error e => exact iff_of_false (fun h => nomatch h) (fun ⟨_, h, _⟩ => nomatch h)
  | ok u => exact ⟨fun h => ⟨u, rfl, h⟩, fun ⟨_, hu, h⟩ => Except.ok.inj hu ▸ h⟩

/-- Adding the providers of aspects merges them in order and changes nothing else. -/
theorem addProviders_eq_ok_iff : s.addProviders t rs = .ok t' ↔
    ∃ r, (provided (rs.map Prod.snd)).foldlM Providers.merge t.providers = .ok r ∧
      t' = { t with value := { t.value with providers := r } } := by
  induction rs generalizing t with
  | nil =>
      constructor
      · intro h
        obtain rfl := Except.ok.inj h
        exact ⟨t.providers, rfl, rfl⟩
      · intro ⟨r, hr, ht⟩
        obtain rfl := Except.ok.inj hr
        exact congrArg Except.ok ht.symm
  | cons e rs ih =>
      obtain ⟨k, result⟩ := e
      cases result with
      | error f => exact ih
      | ok v =>
          have hprovided : provided (((k, .ok v) :: rs).map Prod.snd) =
              v.providers :: provided (rs.map Prod.snd) := rfl
          simp only [hprovided, addProviders_cons, Providers.foldlM_merge_cons,
            withProviders_eq_ok_iff, ih]
          constructor
          · rintro ⟨_, ⟨m, hm, rfl⟩, r, hr, rfl⟩
            exact ⟨r, ⟨m, hm, hr⟩, rfl⟩
          · rintro ⟨r, ⟨m, hm, hr⟩, rfl⟩
            exact ⟨_, ⟨m, hm, rfl⟩, r, hr, rfl⟩

end EdgeSource

namespace Providers

/-- Merging does not depend on the order, and merges everything or nothing. A row of merges succeeds
exactly if no two members share a name, and then every name keeps its value; any other order succeeds
and fails alike, with the same result. A merge that fails leaves what it merges into as it was and
names the first name that both have. The providers of aspects are such a row, whatever the order in
which the aspects are applied. -/
theorem merges_order_free (base : Providers) (ps : List Providers) :
    ((∃ r, (ps.forM absorb).run.run base = (.ok (), r)) ↔ (base :: ps).Pairwise Apart) ∧
    (∀ r, (ps.forM absorb).run.run base = (.ok (), r) → Unites (base :: ps) r) ∧
    (∀ qs, ps.Perm qs →
      ((base :: ps).Pairwise Apart ↔ (base :: qs).Pairwise Apart) ∧
      ∀ r, (ps.forM absorb).run.run base = (.ok (), r) ↔
        (qs.forM absorb).run.run base = (.ok (), r)) ∧
    (∀ q e r, (absorb q).run.run base = (.error e, r) →
      r = base ∧ FirstShared base q e.name) ∧
    (∀ e r, (ps.forM absorb).run.run base = (.error e, r) → ∃ before q after,
      ps = before ++ q :: after ∧ (before.forM absorb).run.run base = (.ok (), r) ∧
      (absorb q).run.run r = (.error e, r) ∧ FirstShared r q e.name) ∧
    ∀ (s : EdgeSource) t rs, t.providers = base → (EdgeSource.provided (rs.map Prod.snd)).Perm ps →
      ∀ t', s.addProviders t rs = .ok t' ↔
        ∃ r, (ps.forM absorb).run.run base = (.ok (), r) ∧
          t' = { t with value := { t.value with providers := r } } := by
  simp only [run_forM_absorb_eq_ok_iff]
  refine ⟨⟨fun ⟨r, h⟩ => (foldlM_merge_eq_ok h).1, exists_foldlM_merge⟩,
    fun r h => (foldlM_merge_eq_ok h).2,
    fun qs h => ⟨(h.cons base).pairwise_iff fun h => h.symm, fun r => foldlM_merge_perm h⟩,
    fun q e r => run_absorb_eq_error, ?_, ?_⟩
  · intro e r h
    obtain ⟨before, q, after, hps, hbefore, hfails⟩ := run_forM_absorb_eq_error h
    exact ⟨before, q, after, hps, hbefore, hfails,
      (run_absorb_eq_error hfails).2⟩
  · rintro s t rs rfl hperm t'
    simp only [EdgeSource.addProviders_eq_ok_iff, foldlM_merge_perm hperm]

end Providers

/-! ### A library with the providers of three aspects -/

namespace MergingSample

def library : Providers := .ofList [("library", .text "core.rlib")]
def docs : Providers := .ofList [("docs", .text "core.html"), ("summary", .text "core")]
def lints : Providers := .ofList [("lints", .labels [])]
def report : Providers := .ofList [("report", .text "all"), ("lints", .list []), ("docs", .list [])]

def together : Providers := .ofList
  [("docs", .text "core.html"), ("library", .text "core.rlib"), ("lints", .labels []),
    ("summary", .text "core")]

/-- The documentation and the lints of the library come together in either order. Its report has two
names that are there by then; the first is named, and what was merged stays. -/
theorem merges_order_free_library :
    ([library, docs, lints].Pairwise Providers.Apart ∧
      Providers.Unites [library, docs, lints] together ∧
      ([lints, docs].forM Providers.absorb).run.run library = (.ok (), together)) ∧
    ((Providers.absorb report).run.run together = (.error ⟨"docs"⟩, together) ∧
      Providers.FirstShared together report "docs") := by
  have hmerged : ([docs, lints].forM Providers.absorb).run.run library = (.ok (), together) := by
    rfl
  have hfails : (Providers.absorb report).run.run together = (.error ⟨"docs"⟩, together) := by
    rfl
  obtain ⟨hsucceeds, hunites, horder, _⟩ := Providers.merges_order_free library [docs, lints]
  obtain ⟨_, _, _, hfailing, _⟩ := Providers.merges_order_free together []
  exact ⟨⟨hsucceeds.mp ⟨together, hmerged⟩, hunites together hmerged,
    ((horder [lints, docs] (.swap ..)).2 together).mp hmerged⟩, hfails, (hfailing _ _ _ hfails).2⟩

end MergingSample
end BuildAnalysis
