import Mathlib.Algebra.BigOperators.Group.Finset.Basic
import Mathlib.Algebra.Order.BigOperators.Group.Finset
import Mathlib.Data.Set.Card
import BuildAnalysis.Proofs.Engine.FailFast

/-!
# How much a request runs

A request runs the task of a key again only when all keys that the last run missed have got a value.
Since nothing loses its value meanwhile, the runs of a key miss different keys each time, so a key
that requests `n` keys is run `n + 1` times at most. If the keys that a request demands are finitely
many, this bounds its trials, and since each round has one, the request ends.
-/
namespace BuildAnalysis.Engine

variable {S : KeySpace}

/-- A key is demanded if it is a root or if a trial of a demanded key requests it. -/
inductive Demanded (roots : List S.Key) (ran : List (Trial S)) : S.Key → Prop
  | root {k : S.Key} (h : k ∈ roots) : Demanded roots ran k
  | request {e : Trial S} {k : S.Key} (he : e ∈ ran) (h : Demanded roots ran e.key)
      (hk : k ∈ e.requested) : Demanded roots ran k

theorem Demanded.mono {roots : List S.Key} {ran ran' : List (Trial S)} (hsub : ran ⊆ ran')
    {k : S.Key} (h : Demanded roots ran k) : Demanded roots ran' k := by
  induction h with
  | root hk => exact .root hk
  | request he _ hk ih => exact .request (hsub he) ih hk

namespace Trial

def completes (e : Trial S) : Bool :=
  match e.outcome with
  | .done _ => true
  | .notReady _ => false
  | .cancelled => false

def firstMissed? (e : Trial S) : Option S.Key :=
  match e.outcome with
  | .done _ => none
  | .notReady missing => missing.head?
  | .cancelled => none

def requestedBy (k : S.Key) (ran : List (Trial S)) : Finset S.Key :=
  ((ran.filter fun e => e.key = k).flatMap requested).toFinset

/-- If the later trial is one of the same key, the earlier one has missed keys, and all of them have
got a value in between. -/
def RetriedBy (e e' : Trial S) : Prop :=
  e.key = e'.key → ∃ ms, e.outcome = .notReady ms ∧ ∀ m ∈ ms, e'.before.store.contains m = true

/-- What a trial misses it requests, and it had no value when the trial began. -/
def Misses (e : Trial S) : Prop :=
  ∀ ms, e.outcome = .notReady ms →
    ms ≠ [] ∧ ms ⊆ e.requested ∧ ∀ m ∈ ms, e.before.store.contains m = false

/-- After the trial its key has a value, or what it missed has, or its key waits for what it missed
and is not due. -/
def Held (e : Trial S) (c : Schedule S) (store : Store S) (due : List S.Key) : Prop :=
  store.contains e.key = true ∨ ∃ ms, e.outcome = .notReady ms ∧
    ((∀ m ∈ ms, store.contains m = true) ∨
      e.key ∉ due ∧ e.key ∈ c.pending ∧ Listing.find? e.key c.waiting = some ms)

/-! ### Counting trials -/

section Counting

variable {ran : List (Trial S)}

theorem mem_requestedBy {k l : S.Key} :
    l ∈ requestedBy k ran ↔ ∃ e ∈ ran, e.key = k ∧ l ∈ e.requested := by
  simp [requestedBy, and_assoc]

theorem firstMissed?_eq_some {e : Trial S} {m : S.Key} (h : e.firstMissed? = some m) :
    ∃ ms, e.outcome = .notReady ms ∧ m ∈ ms := by
  cases houtcome : e.outcome with
  | done v => simp [firstMissed?, houtcome] at h
  | notReady ms =>
      rw [firstMissed?, houtcome] at h
      exact ⟨ms, rfl, List.mem_of_mem_head? h⟩
  | cancelled => simp [firstMissed?, houtcome] at h

/-- Of the trials of one key, all but the last have missed a key. -/
theorem length_le_missed {k : S.Key} (misses : ∀ e ∈ ran, e.Misses) (same : ∀ e ∈ ran, e.key = k)
    (retried : ran.Pairwise RetriedBy) : ran.length ≤ (ran.filterMap firstMissed?).length + 1 := by
  induction ran with
  | nil => simp
  | cons e es ih =>
      cases es with
      | nil => simp
      | cons e' es =>
          have hlater := (List.pairwise_cons.mp retried).1 e' List.mem_cons_self
          have hkeys : e.key = e'.key :=
            (same e List.mem_cons_self).trans
              (same e' (List.mem_cons_of_mem _ List.mem_cons_self)).symm
          obtain ⟨ms, houtcome, _⟩ := hlater hkeys
          have hne := (misses e List.mem_cons_self ms houtcome).1
          have hfirst : e.firstMissed? = some (ms.head hne) := by
            rw [firstMissed?, houtcome]
            exact List.head?_eq_some_head hne
          have hrest := ih (fun x hx => misses x (List.mem_cons_of_mem _ hx))
            (fun x hx => same x (List.mem_cons_of_mem _ hx)) (List.pairwise_cons.mp retried).2
          rw [List.filterMap_cons_some hfirst]
          exact Nat.succ_le_succ hrest

theorem nodup_missed {k : S.Key} (misses : ∀ e ∈ ran, e.Misses) (same : ∀ e ∈ ran, e.key = k)
    (retried : ran.Pairwise RetriedBy) : (ran.filterMap firstMissed?).Nodup := by
  refine List.pairwise_filterMap.mpr (retried.imp_of_mem fun {e e'} he he' h m hm m' hm' => ?_)
  obtain ⟨ms, houtcome, hcached⟩ := h ((same e he).trans (same e' he').symm)
  obtain ⟨ls, houtcome₁, hmem⟩ := firstMissed?_eq_some hm
  obtain ⟨ms', houtcome', hmem'⟩ := firstMissed?_eq_some hm'
  obtain rfl : ms = ls := Outcome.notReady.inj (houtcome.symm.trans houtcome₁)
  have huncached := (misses e' he' ms' houtcome').2.2 m' hmem'
  rintro rfl
  rw [hcached m hmem] at huncached
  cases huncached

/-- A key is run once more than there are keys that it requests, at most. -/
theorem countP_le_requestedBy (misses : ∀ e ∈ ran, e.Misses) (retried : ran.Pairwise RetriedBy)
    (k : S.Key) : ran.countP (fun e => e.key = k) ≤ 1 + (requestedBy k ran).card := by
  let own := ran.filter fun e => e.key = k
  have hown : ∀ e ∈ own, e ∈ ran ∧ e.key = k := fun e he => by
    simpa [own] using he
  have hmisses : ∀ e ∈ own, e.Misses := fun e he => misses e (hown e he).1
  have hsame : ∀ e ∈ own, e.key = k := fun e he => (hown e he).2
  have hretried : own.Pairwise RetriedBy := retried.filter _
  have hlength := length_le_missed hmisses hsame hretried
  have hsub : (own.filterMap firstMissed?).toFinset ⊆ requestedBy k ran := by
    intro m hm
    obtain ⟨e, he, hfirst⟩ := List.mem_filterMap.mp (List.mem_toFinset.mp hm)
    obtain ⟨ms, houtcome, hmem⟩ := firstMissed?_eq_some hfirst
    exact mem_requestedBy.mpr
      ⟨e, (hown e he).1, hsame e he, (hmisses e he ms houtcome).2.1 hmem⟩
  have hcard := Finset.card_le_card hsub
  rw [List.toFinset_card_of_nodup (nodup_missed hmisses hsame hretried)] at hcard
  have hcount : ran.countP (fun e => e.key = k) = own.length := List.countP_eq_length_filter
  omega

/-- A key that has completed is not run again. -/
theorem nodup_completed (retried : ran.Pairwise RetriedBy) :
    ((ran.filter completes).map Trial.key).Nodup := by
  refine List.pairwise_map.mpr ((retried.filter _).imp_of_mem fun {e e'} he _ h hkeys => ?_)
  obtain ⟨ms, houtcome, _⟩ := h hkeys
  have hcompletes : e.completes = true := (List.mem_filter.mp he).2
  rw [completes, houtcome] at hcompletes
  cases hcompletes

/-- Keys that request each other only, and `d` of them, are run `d * (d + 1)` times at most. -/
theorem length_le_of_demanded {keys : Finset S.Key} (hkeys : ∀ e ∈ ran, e.key ∈ keys)
    (hrequested : ∀ e ∈ ran, ∀ k ∈ e.requested, k ∈ keys) (misses : ∀ e ∈ ran, e.Misses)
    (retried : ran.Pairwise RetriedBy) : ran.length ≤ keys.card * (keys.card + 1) := by
  have hcount : ∀ k ∈ (ran.map key).toFinset, (ran.map key).count k ≤ keys.card + 1 := by
    intro k _
    have hruns := countP_le_requestedBy misses retried k
    have hsub : requestedBy k ran ⊆ keys := fun l hl => by
      obtain ⟨e, he, _, hl⟩ := mem_requestedBy.mp hl
      exact hrequested e he l hl
    have hcard := Finset.card_le_card hsub
    have heq : (ran.map key).count k = ran.countP (fun e => e.key = k) := by
      rw [List.count_eq_countP, List.countP_map]
      rfl
    omega
  have hran : (ran.map key).toFinset ⊆ keys := fun k hk => by
    obtain ⟨e, he, rfl⟩ := List.mem_map.mp (List.mem_toFinset.mp hk)
    exact hkeys e he
  calc ran.length = ∑ k ∈ (ran.map key).toFinset, (ran.map key).count k := by
        rw [List.sum_toFinset_count_eq_length, List.length_map]
    _ ≤ (ran.map key).toFinset.card * (keys.card + 1) := by
        simpa using Finset.sum_le_card_nsmul _ _ _ hcount
    _ ≤ keys.card * (keys.card + 1) := Nat.mul_le_mul_right _ (Finset.card_le_card hran)

end Counting

theorem Fair.misses {e : Trial S} (h : e.Fair [.cancelled]) : e.Misses := fun ms hms =>
  have ⟨hne, _, hsub, hnone⟩ := h.missing (by simp) hms
  ⟨hne, hsub, hnone⟩

end Trial

/-! ### What the rounds keep track of -/

/-- The pending keys are demanded, those that are due are among them, and every trial is held. -/
structure Holds (roots : List S.Key) (ran : List (Trial S)) (c : Schedule S) (store : Store S)
    (due : List S.Key) : Prop where
  distinct : c.pending.Nodup
  demanded : ∀ k ∈ c.pending, Demanded roots ran k
  dueDistinct : due.Nodup
  duePending : ∀ k ∈ due, k ∈ c.pending
  held : ∀ e ∈ ran, e.Held c store due

namespace Holds

variable {roots : List S.Key} {ran : List (Trial S)} {c : Schedule S} {store : Store S}
  {due : List S.Key}

theorem start (roots : List S.Key) (s : Session S) :
    Holds roots [] (s.schedule roots) s.store [] where
  distinct := Listing.nodup_addAll List.nodup_nil _
  demanded _ hk := .root (List.mem_filter.mp (Listing.mem_distinct.mp hk)).1
  dueDistinct := List.nodup_nil
  duePending _ hk := absurd hk List.not_mem_nil
  held _ he := absurd he List.not_mem_nil

theorem grows (h : Holds roots ran c store due) {store' : Store S} (hstore : store.Within store') :
    Holds roots ran c store' due :=
  { h with
    held := fun e he => by
      rcases h.held e he with hcached | ⟨ms, houtcome, hcached | hwaits⟩
      · exact .inl (hstore.contains hcached)
      · exact .inr ⟨ms, houtcome, .inl fun m hm => hstore.contains (hcached m hm)⟩
      · exact .inr ⟨ms, houtcome, .inr hwaits⟩ }

/-- A round that is opened makes its frontier due: whatever a key of it waited for has a value. -/
theorem opening {s : Session S} {c' : Schedule S} {frontier : List S.Key}
    (h : Holds roots ran c s.store []) (hc : c.opening s = .go c' frontier) :
    Holds roots ran c' s.store frontier := by
  obtain ⟨rfl, rfl, -⟩ := Schedule.of_opening hc
  have hpending : ∀ k ∈ (c.refresh s.store).frontier s.store, k ∈ (c.refresh s.store).pending :=
    fun k hk => (List.mem_filter.mp hk).1
  have hdistinct : (c.refresh s.store).pending.Nodup := h.distinct.filter _
  refine ⟨hdistinct, fun k hk => h.demanded k (Tracks.mem_pending_refresh.mp hk).1,
    hdistinct.filter _, hpending, fun e he => ?_⟩
  rcases h.held e he with hcached | ⟨ms, houtcome, hcached | ⟨-, hkey, hwaits⟩⟩
  · exact .inl hcached
  · exact .inr ⟨ms, houtcome, .inl hcached⟩
  by_cases hcached : s.store.contains e.key = true
  · exact .inl hcached
  have hkept : e.key ∈ (c.refresh s.store).pending :=
    Tracks.mem_pending_refresh.mpr ⟨hkey, by simpa using hcached⟩
  have hstill : Listing.find? e.key (c.refresh s.store).waiting = some ms := by
    rw [Tracks.find?_waiting_refresh, if_pos hkept, hwaits]
  by_cases hall : ∀ m ∈ ms, s.store.contains m = true
  · exact .inr ⟨ms, houtcome, .inl hall⟩
  · refine .inr ⟨ms, houtcome, .inr ⟨fun hdue => hall ?_, hkept, hstill⟩⟩
    have hready := (List.mem_filter.mp hdue).2
    rw [hstill] at hready
    exact List.all_eq_true.mp hready

/-- If a due key without a value has run before, it missed keys, and all of them have a value. -/
theorem retried (h : Holds roots ran c store due) {k : S.Key} (hk : k ∈ due)
    (hnone : store.contains k = false) {e : Trial S} (he : e ∈ ran) (hkey : e.key = k) :
    ∃ ms, e.outcome = .notReady ms ∧ ∀ m ∈ ms, store.contains m = true := by
  rcases h.held e he with hcached | ⟨ms, houtcome, hcached | ⟨hdue, -⟩⟩
  · rw [hkey, hnone] at hcached
    cases hcached
  · exact ⟨ms, houtcome, hcached⟩
  · exact absurd (hkey ▸ hk) hdue

theorem complete {e : Trial S} (h : Holds roots ran c store (e.key :: due))
    (hcached : store.contains e.key = true) :
    Holds roots (ran ++ [e]) (c.complete e.key) store due := by
  obtain ⟨hnotDue, hdistinct⟩ := List.nodup_cons.mp h.dueDistinct
  have hpending : ∀ k, k ≠ e.key → k ∈ c.pending → k ∈ (c.complete e.key).pending :=
    fun k hne hk => List.mem_filter.mpr ⟨hk, by simpa using hne⟩
  refine ⟨h.distinct.filter _, fun k hk => ?_, hdistinct, fun k hk => ?_, fun e' he' => ?_⟩
  · exact (h.demanded k (List.mem_filter.mp hk).1).mono (List.subset_append_left _ _)
  · have hne : k ≠ e.key := fun heq => hnotDue (heq ▸ hk)
    exact hpending k hne (h.duePending k (List.mem_cons_of_mem _ hk))
  by_cases hkey : e'.key = e.key
  · exact .inl (hkey ▸ hcached)
  have hold : e' ∈ ran := by
    rcases List.mem_append.mp he' with hold | hnew
    · exact hold
    · exact absurd (congrArg Trial.key (List.mem_singleton.mp hnew)) hkey
  rcases h.held e' hold with hcached | ⟨ms, houtcome, hcached | ⟨hdue, hmem, hwaits⟩⟩
  · exact .inl hcached
  · exact .inr ⟨ms, houtcome, .inl hcached⟩
  · have hstill : Listing.find? e'.key (c.complete e.key).waiting = some ms := by
      rw [← hwaits]
      exact (Listing.find?_filter e'.key e.key c.waiting).trans (if_neg hkey)
    exact .inr ⟨ms, houtcome, .inr ⟨fun hdue' => hdue (List.mem_cons_of_mem _ hdue'),
      hpending _ hkey hmem, hstill⟩⟩

theorem suspend {e : Trial S} (h : Holds roots ran c store (e.key :: due)) {ms : List S.Key}
    (houtcome : e.outcome = .notReady ms) (hmissing : ms ⊆ e.requested) :
    Holds roots (ran ++ [e]) (c.suspend e.key ms) store due := by
  obtain ⟨hnotDue, hdistinct⟩ := List.nodup_cons.mp h.dueDistinct
  have hpending : ∀ k ∈ c.pending, k ∈ (c.suspend e.key ms).pending :=
    fun k hk => Listing.mem_addAll.mpr (.inl hk)
  have hwaiting : ∀ k, Listing.find? k (c.suspend e.key ms).waiting =
      if e.key = k then some ms else Listing.find? k c.waiting :=
    fun k => Listing.find?_put k e.key ms c.waiting
  have hkey : e.key ∈ c.pending := h.duePending _ List.mem_cons_self
  refine ⟨Listing.nodup_addAll h.distinct ms, fun k hk => ?_, hdistinct,
    fun k hk => hpending k (h.duePending k (List.mem_cons_of_mem _ hk)), fun e' he' => ?_⟩
  · rcases Listing.mem_addAll.mp hk with hk | hk
    · exact (h.demanded k hk).mono (List.subset_append_left _ _)
    · have hdemanded := (h.demanded e.key hkey).mono (List.subset_append_left ran [e])
      exact .request (List.mem_append_right _ List.mem_cons_self) hdemanded (hmissing hk)
  rcases List.mem_append.mp he' with hold | hnew
  · rcases h.held e' hold with hcached | ⟨ms', houtcome', hcached | ⟨hdue, hmem, hwaits⟩⟩
    · exact .inl hcached
    · exact .inr ⟨ms', houtcome', .inl hcached⟩
    · have hne : e.key ≠ e'.key := fun heq => hdue (heq ▸ List.mem_cons_self)
      refine .inr ⟨ms', houtcome', .inr ⟨fun hdue' => hdue (List.mem_cons_of_mem _ hdue'),
        hpending _ hmem, ?_⟩⟩
      rw [hwaiting, if_neg hne, hwaits]
  · obtain rfl := List.mem_singleton.mp hnew
    exact .inr ⟨ms, houtcome, .inr ⟨hnotDue, hpending _ hkey, by rw [hwaiting, if_pos rfl]⟩⟩

/-- When the outcomes of all due keys have been taken into account, nothing is due. -/
theorem settle {keepGoing : Bool} {es : List (Trial S)} {s t : Session S} {c' : Schedule S}
    (h : Holds roots ran c s.store (es.map Trial.key))
    (stored : ∀ e ∈ es, ∀ v, e.outcome = .done v → s.store.contains e.key = true)
    (misses : ∀ e ∈ es, e.Misses)
    (hsettle : settle keepGoing (es.map Trial.evaluated) c s = (.ok c', t)) :
    Holds roots (ran ++ es) c' t.store [] := by
  induction es generalizing ran c s with
  | nil =>
      cases hsettle
      simpa using h
  | cons e es ih =>
      obtain ⟨hstored, hrest⟩ := List.forall_mem_cons.mp stored
      obtain ⟨hmisses, hmissesRest⟩ := List.forall_mem_cons.mp misses
      have happend : ran ++ e :: es = ran ++ [e] ++ es := by simp
      rw [List.map_cons, Trial.evaluated] at hsettle
      rw [happend]
      cases houtcome : e.outcome with
      | done v =>
          simp only [houtcome, Engine.settle] at hsettle
          split at hsettle
          next => cases hsettle
          next => exact ih (h.complete (hstored v houtcome)) hrest hmissesRest hsettle
      | notReady ms =>
          simp only [houtcome, Engine.settle] at hsettle
          refine ih ?_ ?_ hmissesRest hsettle
          · exact h.suspend houtcome (hmisses ms houtcome).2.1
          · exact hrest
      | cancelled =>
          simp only [houtcome, Engine.settle] at hsettle
          cases hsettle

end Holds

/-- The trials are those of demanded keys that had no value in the beginning, and a key is run again
only for a reason. -/
structure Warranted (roots : List S.Key) (s : Session S) (ran : List (Trial S)) : Prop where
  uncached : ∀ e ∈ ran, s.store.contains e.key = false
  demanded : ∀ e ∈ ran, Demanded roots ran e.key
  misses : ∀ e ∈ ran, e.Misses
  retried : ran.Pairwise Trial.RetriedBy

namespace Warranted

variable {roots : List S.Key} {s start : Session S} {ran es : List (Trial S)} {c : Schedule S}

theorem length_le {keys : Finset S.Key} (h : Warranted roots s ran)
    (hkeys : ∀ k, Demanded roots ran k → k ∈ keys) :
    ran.length ≤ keys.card * (keys.card + 1) :=
  Trial.length_le_of_demanded (fun e he => hkeys _ (h.demanded e he))
    (fun e he _ hk => hkeys _ (.request he (h.demanded e he) hk)) h.misses h.retried

/-- The trials of one more round are warranted. -/
theorem round (h : Warranted roots s ran) (hgrows : s.Grows start)
    (hholds : Holds roots ran c start.store (es.map Trial.key))
    (hnone : ∀ k ∈ es.map Trial.key, start.store.contains k = false)
    (hes : ∀ e ∈ es, start.Grows e.before ∧ e.Misses) : Warranted roots s (ran ++ es) where
  uncached := List.forall_mem_append.mpr ⟨h.uncached, fun e he =>
    hgrows.contains_eq_false (hnone _ (List.mem_map_of_mem he))⟩
  demanded := by
    refine List.forall_mem_append.mpr ⟨fun e he => ?_, fun e he => ?_⟩
    · exact (h.demanded e he).mono (List.subset_append_left _ _)
    · have hdue := hholds.duePending e.key (List.mem_map_of_mem he)
      exact (hholds.demanded e.key hdue).mono (List.subset_append_left _ _)
  misses := List.forall_mem_append.mpr ⟨h.misses, fun e he => (hes e he).2⟩
  retried := by
    refine List.pairwise_append.mpr ⟨h.retried, ?_, fun e he e' he' hkey => ?_⟩
    · -- Within a round the keys are distinct.
      exact (List.pairwise_map.mp hholds.dueDistinct).imp fun hne heq => absurd heq hne
    · have hdue : e'.key ∈ es.map Trial.key := List.mem_map_of_mem he'
      obtain ⟨ms, houtcome, hcached⟩ := hholds.retried hdue (hnone _ hdue) he hkey
      exact ⟨ms, houtcome, fun m hm => (hes e' he').1.store.contains (hcached m hm)⟩

end Warranted

theorem Schedule.frontier_ne_nil {c c' : Schedule S} {s : Session S} {frontier : List S.Key}
    (hc : c.opening s = .go c' frontier) : frontier ≠ [] := by
  rintro rfl
  obtain ⟨-, hfrontier, -⟩ := Schedule.of_opening hc
  simp only [Schedule.opening, ← hfrontier] at hc
  repeat' split at hc
  all_goals simp_all

structure Round.Due (roots : List S.Key) (s : Session S) (ran : List (Trial S)) (c : Schedule S)
    (start : Session S) (x : Round S) : Prop where
  grows : s.Grows start
  fair : x.Fair [.cancelled] start
  holds : Holds roots ran c start.store (x.slots.map Slot.key)
  uncached : ∀ k ∈ x.slots.map Slot.key, start.store.contains k = false
  nonempty : x.slots.map Slot.key ≠ []

namespace Round.Due

variable {roots : List S.Key} {s start t : Session S} {ran es : List (Trial S)}
  {c c' : Schedule S} {x y : Round S}

theorem begin {frontier : List S.Key} (hgrows : s.Grows t) (hholds : Holds roots ran c t.store [])
    (hc : c.opening t = .go c' frontier) :
    Due roots s ran c' (t.announce c' frontier)
      ⟨frontier.map .queued, t.announce c' frontier⟩ := by
  obtain ⟨-, hfrontier, hcomputed⟩ := Schedule.of_opening hc
  have hkeys : (frontier.map Slot.queued).map Slot.key = frontier := by
    rw [List.map_map]
    exact List.map_id frontier
  refine ⟨hgrows.trans (t.grows_log _), .begin hcomputed (.refl _), ?_, fun k hk => ?_, ?_⟩
  · rw [hkeys]
    exact hholds.opening hc
  · rw [hkeys, hfrontier] at hk
    exact (Tracks.mem_pending_refresh.mp (List.mem_filter.mp hk).1).2
  · rw [hkeys]
    exact Schedule.frontier_ne_nil hc

theorem work {compute : Computation S} {beside : Beside S} {threads : Nat}
    (h : Due roots s ran c start x) (hcompute : compute.WaitsAtRequests) (hbeside : beside.Grows)
    (hstep : x.Step compute beside threads y) : Due roots s ran c start y := by
  have hkeys := hstep.keys
  exact ⟨h.grows, (hstep.fair hcompute hbeside h.fair).1, hkeys ▸ h.holds, hkeys ▸ h.uncached,
    hkeys ▸ h.nonempty⟩

theorem onSession {xs : List (Slot S)} (h : Due roots s ran c start ⟨xs, t⟩) {u : Session S}
    (htu : t.Grows u) : Due roots s ran c start ⟨xs, u⟩ :=
  { h with fair := h.fair.onSession htu }

theorem keys_ended (es : List (Trial S)) :
    (es.map Slot.ended).map Slot.key = es.map Trial.key := by
  rw [List.map_map]
  rfl

theorem trials_ne_nil (h : Due roots s ran c start ⟨es.map .ended, t⟩) : es ≠ [] := by
  rintro rfl
  exact h.nonempty rfl

theorem warranted (h : Due roots s ran c start ⟨es.map .ended, t⟩) (hran : Warranted roots s ran) :
    Warranted roots s (ran ++ es) := by
  obtain ⟨hgrows, hfair, hholds, hnone, -⟩ := h
  rw [keys_ended] at hholds hnone
  have htrials := hfair.trials
  exact hran.round hgrows hholds hnone fun e he => ⟨(htrials e he).1, (htrials e he).2.1.misses⟩

/-- After a round that does not end the request, the schedule holds its trials too. -/
theorem settle {keepGoing : Bool} {u : Session S}
    (h : Due roots s ran c start ⟨es.map .ended, t⟩)
    (hsettle : Engine.settle keepGoing (es.map Trial.evaluated) c t = (.ok c', u)) :
    s.Grows u ∧ Holds roots (ran ++ es) c' u.store [] := by
  obtain ⟨hgrows, hfair, hholds, -, -⟩ := h
  rw [keys_ended] at hholds
  have htrials := hfair.trials
  have hround := hholds.grows hfair.grows.store
  refine ⟨(hgrows.trans hfair.grows).trans (settle_grows hsettle),
    hround.settle (fun e he v hv => ?_) (fun e he => (htrials e he).2.1.misses) hsettle⟩
  exact (htrials e he).2.2.store.contains
    (Store.contains_of_value? ((htrials e he).2.1.value? hv))

end Round.Due

section Rounds

variable {compute : Computation S} {nest : Nest S} {keepGoing : Bool} {c c' : Schedule S}
  {s : Session S} {frontier : List S.Key}

theorem map_key_trialsOf (ks : List S.Key) (s : Session S) :
    (trialsOf compute nest ks s).map Trial.key = ks := by
  induction ks generalizing s with
  | nil => rfl
  | cons k ks ih => exact congrArg (k :: ·) (ih _)

theorem rounds_le_of_exhausted (rounds : Nat)
    (hended : (runRounds compute nest keepGoing rounds c s).1 = .error .exhausted) :
    rounds ≤ (trialsWithin compute nest keepGoing rounds c s).length := by
  induction rounds, c, s using rounds_induction compute nest keepGoing with
  | out => exact Nat.zero_le _
  | ended _ _ _ _ hc =>
      rw [runRounds_ended hc] at hended
      rcases Schedule.of_opening_ended hc with rfl | rfl | ⟨_, rfl⟩ | ⟨_, rfl⟩ <;> cases hended
  | failed _ _ _ _ _ e _ hc hsettle =>
      rw [runRounds_go_error hc hsettle] at hended
      obtain rfl : e = .exhausted := Except.error.inj hended
      exact absurd (congrArg Prod.fst hsettle) (settle_ne_exhausted _ _ _)
  | next rounds c s c' frontier c'' t hc hsettle ih =>
      rw [runRounds_go hc hsettle] at hended
      have hrest := ih hended
      have hfirst : (trialsOf compute nest frontier (s.announce c' frontier)).length =
          frontier.length := by
        rw [← List.length_map Trial.key, map_key_trialsOf]
      have hpos := List.length_pos_of_ne_nil (Schedule.frontier_ne_nil hc)
      rw [trialsWithin_go hc hsettle, List.length_append]
      omega

/-- A request that has ended comes to the same if it may run more rounds. -/
theorem runRounds_stable {rounds more : Nat} (hle : rounds ≤ more)
    (hended : (runRounds compute nest keepGoing rounds c s).1 ≠ .error .exhausted) :
    runRounds compute nest keepGoing more c s = runRounds compute nest keepGoing rounds c s ∧
      trialsWithin compute nest keepGoing more c s =
        trialsWithin compute nest keepGoing rounds c s := by
  induction rounds, c, s using rounds_induction compute nest keepGoing generalizing more with
  | out c s =>
      have hempty : c.pending.isEmpty = true := by
        by_contra hpending
        simp [runRounds, hpending] at hended
      have hopening : c.opening s = .ended (.ok ()) := by rw [Schedule.opening, if_pos hempty]
      cases more with
      | zero => exact ⟨rfl, rfl⟩
      | succ more =>
          rw [runRounds_ended hopening, trialsWithin_ended hopening, runRounds, if_pos hempty]
          exact ⟨rfl, rfl⟩
  | ended _ _ _ _ hc =>
      obtain ⟨more, rfl⟩ := Nat.exists_eq_succ_of_ne_zero (Nat.ne_zero_of_lt hle)
      rw [runRounds_ended hc, runRounds_ended hc, trialsWithin_ended hc, trialsWithin_ended hc]
      exact ⟨rfl, rfl⟩
  | failed _ _ _ _ _ _ _ hc hsettle =>
      obtain ⟨more, rfl⟩ := Nat.exists_eq_succ_of_ne_zero (Nat.ne_zero_of_lt hle)
      simp only [runRounds_go_error hc hsettle, trialsWithin_go_error hc hsettle, and_self]
  | next _ _ _ _ _ _ _ hc hsettle ih =>
      obtain ⟨more, rfl⟩ := Nat.exists_eq_succ_of_ne_zero (Nat.ne_zero_of_lt hle)
      rw [runRounds_go hc hsettle] at hended
      obtain ⟨hrun, htrials⟩ := ih (Nat.le_of_succ_le_succ hle) hended
      simp only [runRounds_go hc hsettle, trialsWithin_go hc hsettle, hrun, htrials, and_self]

end Rounds

end BuildAnalysis.Engine
