import BuildAnalysis.Proofs.Engine.History

/-!
# Computing from scratch

A consistent store tells in which order its values can be computed anew. An engine that knows
nothing but the injected values of such a store never asks for a key that the store does not hold:
in each round the earliest pending key completes or makes an earlier one pending. So it computes the
same values in a number of rounds that only depends on the size of the store.
-/
namespace BuildAnalysis.Engine

variable {S : KeySpace} {compute : Computation S}

namespace Store

variable {c s t : Store S} {k : S.Key}

/-- The position of a key among the entries. -/
def rank (c : Store S) (k : S.Key) : Nat := c.entries.findIdx fun e => e.key = k

theorem rank_lt_length (h : c.contains k = true) : c.rank k < c.entries.length := by
  obtain ⟨e, he, hk⟩ := exists_mem_of_contains h
  exact List.findIdx_lt_length_of_exists ⟨e, he, by simpa using hk⟩

theorem Consistent.rank_lt (hc : c.Consistent compute) {e : Entry S} (he : e ∈ c.entries)
    {d : S.Key} (hd : d ∈ e.deps) : c.rank d < c.rank e.key := by
  have hdlt := rank_lt_length (hc.contains_dep he hd)
  have helt := rank_lt_length (contains_of_mem he)
  have hdkey : c.entries[c.rank d].key = d := of_decide_eq_true (List.findIdx_getElem (w := hdlt))
  have hekey : c.entries[c.rank e.key].key = e.key :=
    of_decide_eq_true (List.findIdx_getElem (w := helt))
  have hentry : c.entries[c.rank e.key] = e := hc.unique.eq (List.getElem_mem helt) he hekey
  rcases Nat.lt_trichotomy (c.rank d) (c.rank e.key) with hlt | heq | hgt
  · exact hlt
  · have hdk : d = e.key := by rw [← hdkey, ← hekey]; congr 2
    exact absurd (hdk ▸ hd) (hc.irreflexive e he)
  · have := List.pairwise_iff_getElem.mp hc.ordered _ _ helt hdlt hgt
    rw [hentry, hdkey] at this
    exact absurd hd this

/-- How many keys of one store have no value in another. -/
def lacking (c t : Store S) : Nat := (c.entries.filter fun e => !t.contains e.key).length

theorem lacking_le (h : s.Within t) : c.lacking t ≤ c.lacking s := by
  refine (List.monotone_filter_right _ fun e he => ?_).length_le
  cases hs : s.contains e.key with
  | false => rfl
  | true => simp [h.contains hs] at he

theorem lacking_lt (h : s.Within t) (hc : c.contains k = true) (hs : s.contains k = false)
    (ht : t.contains k = true) : c.lacking t < c.lacking s := by
  obtain ⟨e, he, rfl⟩ := exists_mem_of_contains hc
  have hsub : (c.entries.filter fun e => !t.contains e.key).Sublist
      (c.entries.filter fun e => !s.contains e.key) := by
    refine List.monotone_filter_right _ fun e he => ?_
    cases hs : s.contains e.key with
    | false => rfl
    | true => simp [h.contains hs] at he
  refine Nat.lt_of_le_of_ne hsub.length_le fun heq => ?_
  have hmem : e ∈ c.entries.filter fun e => !s.contains e.key :=
    List.mem_filter.mpr ⟨he, by simp [hs]⟩
  rw [← hsub.eq_of_length heq] at hmem
  simp [ht] at hmem

end Store

/-- What a key of a round comes to if the values of a store are computed anew: it has got its value,
or it waits for earlier keys. -/
def Evaluated.Fits (c t : Store S) (e : Evaluated S) : Prop :=
  match e.outcome with
  | .done _ => t.contains e.key = true
  | .notReady missing => ∀ m ∈ missing, c.contains m = true ∧ c.rank m < c.rank e.key
  | .cancelled => False

/-- A schedule for computing the values of a store anew: a waiting key waits for earlier keys, which
are pending unless they have got their values. -/
structure Schedule.Covered (c : Store S) (t : Store S) (sch : Schedule S) : Prop where
  pending : ∀ k ∈ sch.pending, c.contains k = true
  waiting : ∀ e ∈ sch.waiting, ∀ m ∈ e.2,
    c.rank m < c.rank e.1 ∧ (m ∈ sch.pending ∨ t.contains m = true)

namespace Schedule.Covered

variable {c t : Store S} {sch : Schedule S} {k : S.Key}

theorem mono {t' : Store S} (h : sch.Covered c t) (ht : t.Within t') : sch.Covered c t' :=
  ⟨h.pending, fun e he m hm =>
    (h.waiting e he m hm).imp_right fun hm => hm.imp_right ht.contains⟩

theorem refresh (h : sch.Covered c t) : (sch.refresh t).Covered c t := by
  refine ⟨fun k hk => h.pending k (List.mem_filter.mp hk).1, fun e he m hm => ?_⟩
  obtain ⟨hrank, hm⟩ := h.waiting e (List.mem_filter.mp he).1 m hm
  refine ⟨hrank, ?_⟩
  cases hcontains : t.contains m with
  | true => exact .inr rfl
  | false =>
      rcases hm with hm | hm
      · exact .inl (List.mem_filter.mpr ⟨hm, by simp [hcontains]⟩)
      · rw [hcontains] at hm
        cases hm

theorem complete (h : sch.Covered c t) (hk : t.contains k = true) :
    (sch.complete k).Covered c t := by
  refine ⟨fun l hl => h.pending l (List.mem_filter.mp hl).1, fun e he m hm => ?_⟩
  obtain ⟨hrank, hm⟩ := h.waiting e (List.mem_filter.mp he).1 m hm
  refine ⟨hrank, ?_⟩
  by_cases hmk : m = k
  · exact .inr (hmk ▸ hk)
  · exact hm.imp_left fun hm => List.mem_filter.mpr ⟨hm, by simpa using hmk⟩

theorem suspend (h : sch.Covered c t) {missing : List S.Key}
    (hm : ∀ m ∈ missing, c.contains m = true ∧ c.rank m < c.rank k) :
    (sch.suspend k missing).Covered c t := by
  refine ⟨fun l hl => ?_, fun e he m hme => ?_⟩
  · rcases Listing.mem_addAll.mp hl with hl | hl
    · exact h.pending l hl
    · exact (hm l hl).1
  · rcases Listing.mem_put he with rfl | he
    · exact ⟨(hm m hme).2, .inl (Listing.mem_addAll.mpr (.inr hme))⟩
    · exact (h.waiting e he m hme).imp_right fun hm =>
        hm.imp_left fun hm => Listing.mem_addAll.mpr (.inl hm)

/-- The earliest pending key waits for nothing. -/
theorem mem_frontier (h : sch.Covered c t) (hk : k ∈ sch.pending)
    (hfirst : ∀ j ∈ sch.pending, c.rank k ≤ c.rank j) : k ∈ sch.frontier t := by
  refine List.mem_filter.mpr ⟨hk, ?_⟩
  cases hwaiting : Listing.find? k sch.waiting with
  | none => rfl
  | some missing =>
      refine List.all_eq_true.mpr fun m hm => ?_
      obtain ⟨hrank, hm⟩ := h.waiting _ (Listing.mem_of_find? hwaiting) m hm
      rcases hm with hm | hm
      · exact absurd hrank (Nat.not_lt.mpr (hfirst m hm))
      · exact hm

end Schedule.Covered

section Session

variable {c : Store S} {s : Session S}

structure Session.Rebuilds (c : Store S) (s : Session S) : Prop where
  live : s.cancelled = false
  within : s.store.Within c
  /-- The injected values are there already. -/
  given : ∀ k, S.isInjected k = true → c.contains k = true → s.store.contains k = true

structure Session.Rebuilt (c : Store S) (s t : Session S) : Prop where
  rebuilds : t.Rebuilds c
  grows : s.store.Within t.store

theorem Session.Rebuilds.self (h : s.Rebuilds c) : s.Rebuilt c s := ⟨h, fun _ _ hv => hv⟩

theorem Session.Rebuilt.trans {t u : Session S} (h : s.Rebuilt c t) (h' : t.Rebuilt c u) :
    s.Rebuilt c u := ⟨h'.rebuilds, fun k v hv => h'.grows k v (h.grows k v hv)⟩

theorem Session.Rebuilds.of_store_eq {t : Session S} (h : s.Rebuilds c)
    (hlive : t.cancelled = s.cancelled) (hstore : t.store = s.store) : s.Rebuilt c t := by
  refine ⟨⟨hlive.trans h.live, hstore ▸ h.within, hstore ▸ h.given⟩, ?_⟩
  rw [hstore]
  exact fun _ _ hv => hv

/-- Evaluating a key anew gives it its value, or it misses an earlier key. -/
theorem evaluate_rebuilt (lawful : ∀ k, (compute k).Lawful) (hc : c.Consistent compute)
    (nest : Nest S) {k : S.Key} (hk : c.contains k = true) (hcomputed : S.isInjected k = false)
    (h : s.Rebuilds c) :
    s.Rebuilt c (evaluate compute nest k s).2 ∧
      Evaluated.Fits c (evaluate compute nest k s).2.store ⟨k, (evaluate compute nest k s).1⟩ ∧
      ∀ missing, (evaluate compute nest k s).1 = .notReady missing →
        ∃ m ∈ missing, s.store.contains m = false := by
  obtain ⟨e, he, rfl⟩ := Store.exists_mem_of_contains hk
  obtain ⟨q, hq, hv, hd⟩ := hc.computed e he hcomputed
  have hlive : s.isCancelled = false := by simp [Session.isCancelled, h.live]
  obtain ⟨es, leaves, _⟩ := Task.run_lawful nest
    ((lawful e.key).uninterrupted_eq.symm ▸ lawful e.key) { session := s }
  have hcancelled := (lawful e.key).run_cancelled nest { session := s }
  have hdep : ∀ m ∈ q.requested, m ∈ e.deps := fun m hm => hd ▸ Listing.mem_distinct.mpr hm
  have hran := Task.run_within nest (lawful e.key) (r := { session := s }) hlive h.within hq hv
  unfold evaluate
  generalize (compute e.key).run nest { session := s } = ran at leaves hcancelled hran ⊢
  obtain ⟨a, r⟩ := ran
  have hstore : r.session.store = s.store := leaves.store
  rcases hran with ⟨ha, _⟩ | ⟨ha, ⟨m, hm, _, hn⟩, hall⟩
  · obtain rfl : a = .ok e.value := ha
    have hwithin : (r.session.store.insertComputed e.key e.value r.deps).1.Within c := by
      rw [hstore]
      exact h.within.insertComputed (hc.unique.value? he) r.deps
    have hgrows : s.store.Within (r.session.store.insertComputed e.key e.value r.deps).1 := by
      rw [hstore]
      exact Store.within_insertComputed e.value r.deps
    refine ⟨⟨⟨hcancelled.trans h.live, hwithin, fun k hk hck => ?_⟩, hgrows⟩, ?_,
      by simp [Running.conclude]⟩
    · exact hgrows.contains (h.given k hk hck)
    · exact Store.contains_insertComputed e.value r.deps
  · obtain rfl : a = .error .notReady := ha
    refine ⟨h.of_store_eq hcancelled hstore, fun m hm => ?_, fun missing hmissing => ?_⟩
    · rcases hall m hm with hm | ⟨hm, _⟩
      · cases hm
      · exact ⟨hc.contains_dep he (hdep m hm), hc.rank_lt he (hdep m hm)⟩
    · obtain rfl := Outcome.notReady.inj hmissing
      exact ⟨m, hm, hn⟩

theorem Evaluated.Fits.mono {t t' : Store S} {e : Evaluated S} (h : e.Fits c t)
    (ht : t.Within t') : e.Fits c t' := by
  unfold Fits at h ⊢
  split
  next heq => rw [heq] at h; exact ht.contains h
  next heq => rw [heq] at h; exact h
  next heq => rw [heq] at h; exact h

/-- Evaluating the keys of a round anew. -/
theorem evaluateAll_rebuilt (lawful : ∀ k, (compute k).Lawful) (hc : c.Consistent compute)
    (nest : Nest S) {ks : List S.Key}
    (hks : ∀ k ∈ ks, c.contains k = true ∧ S.isInjected k = false) (h : s.Rebuilds c) :
    s.Rebuilt c (evaluateAll compute nest ks s).2 ∧
      (evaluateAll compute nest ks s).1.map Evaluated.key = ks ∧
      ∀ e ∈ (evaluateAll compute nest ks s).1,
        e.Fits c (evaluateAll compute nest ks s).2.store ∧
        ∀ missing, e.outcome = .notReady missing → ∃ m ∈ missing, s.store.contains m = false := by
  induction ks generalizing s with
  | nil => exact ⟨h.self, rfl, by simp [evaluateAll]⟩
  | cons k ks ih =>
      obtain ⟨hk, hcomputed⟩ := hks k List.mem_cons_self
      obtain ⟨hfirst, hfits, hmissing⟩ := evaluate_rebuilt lawful hc nest hk hcomputed h
      obtain ⟨hrest, hkeys, hall⟩ :=
        ih (fun l hl => hks l (List.mem_cons_of_mem _ hl)) hfirst.rebuilds
      refine ⟨hfirst.trans hrest, by simp [evaluateAll, hkeys], fun e he => ?_⟩
      rcases List.mem_cons.mp he with rfl | he
      · exact ⟨hfits.mono hrest.grows, hmissing⟩
      · refine ⟨(hall e he).1, fun missing heq => ?_⟩
        obtain ⟨m, hm, hn⟩ := (hall e he).2 missing heq
        refine ⟨m, hm, Bool.eq_false_iff.mpr fun hs => ?_⟩
        rw [hfirst.grows.contains hs] at hn
        cases hn

/-- Taking the outcomes of a round into account when the request goes on after failures. -/
theorem settle_covered {es : List (Evaluated S)} {sch : Schedule S}
    (hes : ∀ e ∈ es, e.Fits c s.store) (h : sch.Covered c s.store) :
    ∃ sch' s', settle true es sch s = (.ok sch', s') ∧ s'.store = s.store ∧
      s'.cancelled = s.cancelled ∧ sch'.Covered c s.store ∧
      (∀ k ∈ sch.pending, k ∈ sch'.pending ∨ s.store.contains k = true) ∧
      ∀ e ∈ es, ∀ missing, e.outcome = .notReady missing →
        ∀ m ∈ missing, m ∈ sch'.pending ∨ s.store.contains m = true := by
  induction es generalizing sch s with
  | nil => exact ⟨sch, s, rfl, rfl, rfl, h, fun _ hk => .inl hk, by simp⟩
  | cons e es ih =>
      obtain ⟨k, outcome⟩ := e
      have hfirst := hes _ List.mem_cons_self
      have hrest := fun e he => hes e (List.mem_cons_of_mem _ he)
      cases outcome with
      | done v =>
          obtain ⟨sch', s', hsettle, hstore, hlive, hcov, hpending, hmissing⟩ :=
            ih hrest (h.complete hfirst)
          refine ⟨sch', s', hsettle, hstore, hlive, hcov, fun l hl => ?_, fun e he => ?_⟩
          · by_cases hlk : l = k
            · exact .inr (hlk ▸ hfirst)
            · exact hpending l (List.mem_filter.mpr ⟨hl, by simpa using hlk⟩)
          · rcases List.mem_cons.mp he with rfl | he
            · simp
            · exact hmissing e he
      | notReady missing =>
          obtain ⟨sch', s', hsettle, hstore, hlive, hcov, hpending, hmissing⟩ :=
            ih (s := s.logAt .debug
              s!"{S.keyText k} is not ready, restarting after {missing.length} keys")
              hrest (h.suspend hfirst)
          refine ⟨sch', s', hsettle, hstore, hlive, hcov, fun l hl => ?_, fun e he => ?_⟩
          · exact hpending l (Listing.mem_addAll.mpr (.inl hl))
          · rcases List.mem_cons.mp he with rfl | he
            · intro missing' heq m hm
              obtain rfl := Outcome.notReady.inj heq
              exact hpending m (Listing.mem_addAll.mpr (.inr hm))
            · exact hmissing e he
      | cancelled => exact hfirst.elim

theorem Session.Rebuilds.frontier_computed (h : s.Rebuilds c) {sch : Schedule S}
    (hcov : sch.Covered c s.store) (hunstored : ∀ j ∈ sch.pending, s.store.contains j = false) :
    ∀ j ∈ sch.frontier s.store, c.contains j = true ∧ S.isInjected j = false := by
  intro j hj
  have hpending := (List.mem_filter.mp hj).1
  refine ⟨hcov.pending j hpending, Bool.eq_false_iff.mpr fun hinjected => ?_⟩
  have := hunstored j hpending
  rw [h.given j hinjected (hcov.pending j hpending)] at this
  cases this

/-- A round that runs: the earliest pending key either gets its value or makes an earlier key
pending. -/
theorem round_rebuilt (lawful : ∀ k, (compute k).Lawful) (hc : c.Consistent compute)
    (nest : Nest S) {sch : Schedule S} {k : S.Key} (h : s.Rebuilds c)
    (hcov : sch.Covered c s.store) (hunstored : ∀ j ∈ sch.pending, s.store.contains j = false)
    (hk : k ∈ sch.pending) (hfirst : ∀ j ∈ sch.pending, c.rank k ≤ c.rank j) (message : String) :
    ∃ sch' s', settle true
        (evaluateAll compute nest (sch.frontier s.store) (s.logAt .debug message)).1 sch
        (evaluateAll compute nest (sch.frontier s.store) (s.logAt .debug message)).2 =
          (.ok sch', s') ∧
      s.Rebuilt c s' ∧ sch'.Covered c s'.store ∧
      (∀ j ∈ sch.pending, j ∈ sch'.pending ∨ s'.store.contains j = true) ∧
      (c.lacking s'.store < c.lacking s.store ∨
        ∃ m ∈ sch'.pending, s'.store.contains m = false ∧ c.rank m < c.rank k) := by
  have hlogged : s.Rebuilt c (s.logAt .debug message) := h.of_store_eq rfl rfl
  obtain ⟨hevaluated, hkeys, hall⟩ :=
    evaluateAll_rebuilt lawful hc nest (h.frontier_computed hcov hunstored) hlogged.rebuilds
  obtain ⟨sch', s', hsettle, hstore, hlive, hcov', hpending, hmissing⟩ :=
    settle_covered (fun e he => (hall e he).1) (hcov.mono hevaluated.grows)
  have hs' := hlogged.trans (hevaluated.trans (hevaluated.rebuilds.of_store_eq hlive hstore))
  rw [← hstore] at hcov' hpending hmissing
  refine ⟨sch', s', hsettle, hs', hcov', hpending, ?_⟩
  -- the earliest key is in the frontier, so it was evaluated
  have hmem : k ∈ (evaluateAll compute nest (sch.frontier s.store)
      (s.logAt .debug message)).1.map Evaluated.key := by
    rw [hkeys]
    exact hcov.mem_frontier hk hfirst
  obtain ⟨⟨k, outcome⟩, he, rfl⟩ := List.mem_map.mp hmem
  obtain ⟨hfits, hstart⟩ := hall _ he
  cases outcome with
  | done v =>
      refine .inl (Store.lacking_lt hs'.grows (hcov.pending k hk) (hunstored k hk) ?_)
      rw [hstore]
      exact hfits
  | notReady missing =>
      obtain ⟨m, hm, hn⟩ := hstart missing rfl
      obtain ⟨hcm, hrank⟩ := hfits m hm
      cases hcontains : s'.store.contains m with
      | true => exact .inl (Store.lacking_lt hs'.grows hcm hn hcontains)
      | false =>
          rcases hmissing _ he missing rfl m hm with hmp | hmc
          · exact .inr ⟨m, hmp, hcontains, hrank⟩
          · rw [hcontains] at hmc
            cases hmc
  | cancelled => exact hfits.elim

/-- Enough rounds compute everything that is pending. The bound falls in each round, since a value
is added or an earlier key becomes pending. -/
theorem runRounds_rebuilt (lawful : ∀ k, (compute k).Lawful) (hc : c.Consistent compute)
    (nest : Nest S) {rounds : Nat} {sch : Schedule S} (h : s.Rebuilds c)
    (hcov : sch.Covered c s.store) (n : Nat)
    (hn : (∀ k ∈ sch.pending, s.store.contains k = true) ∨
      ∃ k ∈ sch.pending, s.store.contains k = false ∧ c.rank k ≤ n)
    (hrounds : c.lacking s.store * (c.entries.length + 1) + n < rounds) :
    ∃ s', runRounds compute nest true rounds sch s = (.ok (), s') ∧ s.Rebuilt c s' ∧
      ∀ k ∈ sch.pending, s'.store.contains k = true := by
  induction rounds generalizing sch s n with
  | zero => exact absurd hrounds (Nat.not_lt_zero _)
  | succ rounds ih =>
      have hlive : s.isCancelled = false := by simp [Session.isCancelled, h.live]
      unfold runRounds
      by_cases hempty : sch.pending = []
      · exact ⟨s, by simp [hempty], h.self, by simp [hempty]⟩
      have hunstored : ∀ j ∈ (sch.refresh s.store).pending, s.store.contains j = false :=
        fun j hj => by simpa using (List.mem_filter.mp hj).2
      have hstays : ∀ j ∈ sch.pending,
          j ∈ (sch.refresh s.store).pending ∨ s.store.contains j = true := by
        intro j hj
        cases hcontains : s.store.contains j with
        | true => exact .inr rfl
        | false => exact .inl (List.mem_filter.mpr ⟨hj, by simp [hcontains]⟩)
      by_cases hrefreshed : (sch.refresh s.store).pending = []
      · refine ⟨s, by simp [hempty, hlive, hrefreshed], h.self, fun k hk => ?_⟩
        rcases hstays k hk with hk | hk
        · rw [hrefreshed] at hk
          cases hk
        · exact hk
      obtain ⟨k, hk, hfirst⟩ : ∃ k ∈ (sch.refresh s.store).pending,
          ∀ j ∈ (sch.refresh s.store).pending, c.rank k ≤ c.rank j :=
        ⟨_, List.minOn_mem (f := c.rank) (h := hrefreshed),
          fun j hj => List.apply_minOn_le_of_mem hj⟩
      have hkn : c.rank k ≤ n := by
        rcases hn with hn | ⟨j, hj, hjn, hrank⟩
        · have := hunstored k hk
          rw [hn k (List.mem_filter.mp hk).1] at this
          cases this
        · refine Nat.le_trans (hfirst j ?_) hrank
          exact List.mem_filter.mpr ⟨hj, by simp [hjn]⟩
      have hfrontier : (sch.refresh s.store).frontier s.store ≠ [] :=
        List.ne_nil_of_mem (hcov.refresh.mem_frontier hk hfirst)
      have hcomputed : ((sch.refresh s.store).frontier s.store).find? S.isInjected = none :=
        List.find?_eq_none.mpr fun j hj => by
          simp [(h.frontier_computed hcov.refresh hunstored j hj).2]
      simp only [List.isEmpty_iff, hempty, hlive, hrefreshed, hfrontier, hcomputed, ite_false,
        Bool.false_eq_true]
      obtain ⟨sch', s', hsettle, hs', hcov', hpending, hless⟩ := round_rebuilt lawful hc nest h
        hcov.refresh hunstored hk hfirst
        s!"DICE round {(sch.refresh s.store).round}: {((sch.refresh s.store).frontier s.store).length
          } runnable of {(sch.refresh s.store).pending.length} pending keys"
      rw [hsettle]
      obtain ⟨n', hn', hrounds'⟩ : ∃ n', ((∀ j ∈ sch'.pending, s'.store.contains j = true) ∨
          ∃ j ∈ sch'.pending, s'.store.contains j = false ∧ c.rank j ≤ n') ∧
          c.lacking s'.store * (c.entries.length + 1) + n' < rounds := by
        rcases hless with hless | ⟨m, hm, hmn, hrank⟩
        · refine ⟨c.entries.length, ?_, ?_⟩
          · by_cases hall : ∀ j ∈ sch'.pending, s'.store.contains j = true
            · exact .inl hall
            · simp only [not_forall, Bool.not_eq_true] at hall
              obtain ⟨j, hj, hjn⟩ := hall
              exact .inr ⟨j, hj, hjn, Nat.le_of_lt (Store.rank_lt_length (hcov'.pending j hj))⟩
          · have := Nat.mul_le_mul_right (c.entries.length + 1) (Nat.succ_le_of_lt hless)
            rw [Nat.succ_mul] at this
            omega
        · refine ⟨c.rank m, .inr ⟨m, hm, hmn, Nat.le_refl _⟩, ?_⟩
          have := Nat.mul_le_mul_right (c.entries.length + 1) (Store.lacking_le (c := c) hs'.grows)
          omega
      obtain ⟨s'', hrun, hs'', hall⟩ := ih hs'.rebuilds hcov' n' hn' hrounds'
      refine ⟨s'', hrun, hs'.trans hs'', fun j hj => ?_⟩
      rcases hstays j hj with hj | hj
      · rcases hpending j hj with hj | hj
        · exact hall j hj
        · exact hs''.grows.contains hj
      · exact (hs'.trans hs'').grows.contains hj

end Session
end BuildAnalysis.Engine
