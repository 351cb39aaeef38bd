import BuildAnalysis.Engine.Script
import BuildAnalysis.Proofs.Engine.Marks
import BuildAnalysis.Proofs.Engine.Scratch

/-!
# Incremental computation

An engine that has gone through any history computes what a new engine computes from the same
injected values. Each cached value is what its key's task comes to now, on the values cached now,
so a new engine can compute the cache again, one key after the other.
-/
namespace BuildAnalysis.Engine

variable {S : KeySpace} {compute : Computation S}

namespace Session

theorem value?_of_compute {family : Computation S} {bounds : Bounds} {keepGoing : Bool}
    {k : S.Key} {v : S.Value k} {s : Session S}
    (h : (s.compute family bounds keepGoing k).1 = .ok v) :
    (s.compute family bounds keepGoing k).2.store.value? k = some v := by
  simp only [Session.compute, computeMany, computeWithin] at h ⊢
  split at h
  next => cases h
  next s' hrun =>
    simp only [collect] at h
    cases hv : s'.store.value? k with
    | none => simp [hv, Except.map] at h
    | some w =>
        simp only [hv, Except.map, Values.single] at h
        rw [Except.ok.inj h]

/-- A session that computes the values of a store anew gets them, given enough rounds. -/
theorem compute_of_rebuilds (lawful : ∀ k, (compute k).Lawful) {c : Store S}
    (hc : c.Consistent compute) {s : Session S} (h : s.Rebuilds c) {k : S.Key} {v : S.Value k}
    (hk : c.value? k = some v) {bounds : Bounds}
    (hrounds : (c.entries.length + 1) * (c.entries.length + 1) ≤ bounds.rounds) :
    (s.compute compute bounds true k).1 = .ok v := by
  let roots := Listing.distinct ([k].filter fun k => !s.store.contains k)
  have hroots : ∀ j ∈ roots, j = k ∧ s.store.contains j = false := by
    intro j hj
    simpa using List.mem_filter.mp (Listing.mem_distinct.mp hj)
  have hcov : Schedule.Covered c s.store { pending := roots } :=
    ⟨fun j hj => (hroots j hj).1 ▸ Store.contains_of_value? hk, by simp⟩
  have hn : (∀ j ∈ roots, s.store.contains j = true) ∨
      ∃ j ∈ roots, s.store.contains j = false ∧ c.rank j ≤ c.entries.length := by
    by_cases hempty : roots = []
    · exact .inl (by simp [hempty])
    · obtain ⟨j, hj⟩ := List.exists_mem_of_ne_nil _ hempty
      exact .inr ⟨j, hj, (hroots j hj).2,
        Nat.le_of_lt (Store.rank_lt_length (hcov.pending j hj))⟩
  have hbound : c.lacking s.store * (c.entries.length + 1) + c.entries.length < bounds.rounds := by
    have hlacking : c.lacking s.store ≤ c.entries.length := List.length_filter_le _ _
    have := Nat.mul_le_mul_right (c.entries.length + 1) hlacking
    rw [Nat.succ_mul] at hrounds
    omega
  have hvalue : ∀ s' : Session S, s.Rebuilt c s' →
      (∀ j ∈ roots, s'.store.contains j = true) → s'.store.value? k = some v := by
    intro s' hs' hall
    have hcontains : s'.store.contains k = true := by
      cases hold : s.store.contains k with
      | true => exact hs'.grows.contains hold
      | false => exact hall k (Listing.mem_distinct.mpr (by simp [hold]))
    rw [← hs'.rebuilds.within.value?_eq hcontains]
    exact hk
  simp only [Session.compute, computeMany, computeWithin]
  obtain ⟨s', hrun, hs', hall⟩ := runRounds_rebuilt lawful hc _ h hcov c.entries.length hn hbound
  rw [hrun]
  simp [collect, hvalue s' hs' hall, Except.map, Values.single]

end Session

namespace Store

theorem mem_entries_applyAll {s : Store S} {cs : List (Change S)} (hcs : ∀ c ∈ cs, c.Proper)
    {e : Entry S} (he : e ∈ (s.applyAll cs).1.entries) :
    e ∈ s.entries ∨ S.isInjected e.key = true := by
  induction cs generalizing s with
  | nil => exact .inl he
  | cons c cs ih =>
      rw [applyAll_cons] at he
      rcases ih (fun d hd => hcs d (List.mem_cons_of_mem _ hd)) he with he | he
      · exact mem_entries_apply (hcs c List.mem_cons_self) he
      · exact .inr he

end Store

/-- A new engine with the injected values of a store can compute the store anew. -/
theorem Session.begin_rebuilds {c : Store S} {fresh : Session S} (empty : fresh.store = {})
    {cs : List (Change S)} (proper : ∀ d ∈ cs, d.Proper)
    (hsame : ∀ i, S.isInjected i = true → (fresh.begin cs).store.value? i = c.value? i) :
    (fresh.begin cs).Rebuilds c := by
  refine ⟨rfl, fun k v hv => ?_, fun k hk hck => ?_⟩
  · obtain ⟨deps, hmem⟩ := Store.exists_mem_of_value? hv
    rcases Store.mem_entries_applyAll proper hmem with hold | hinjected
    · rw [empty] at hold
      cases hold
    · rw [← hsame k hinjected, hv]
  · rw [Store.contains, hsame k hk]
    exact hck

/-- Incremental computation is computation from scratch. Let an engine that began with nothing go
through any history. Then every cached computed value is what its key's task comes to on the cache
as it is, and the keys that this requests are cached. And if a request for a key then succeeds, so
does, given enough rounds, the same request to a new engine with the same injected values, and the
value is the same. -/
theorem incremental_eq_scratch (lawful : ∀ k, (compute k).Lawful) (faithful : S.Faithful)
    {start : Session S} (empty : start.store = {}) {history : List (Call S)}
    (proper : ∀ c ∈ history, c.Proper compute) :
    (∀ k v, S.isInjected k = false → (start.after history).store.value? k = some v →
      ∀ (nest : Nest S) (t : Session S), t.store = (start.after history).store →
        t.isCancelled = false →
        ((compute k).run nest { session := t }).1 = .ok v ∧
          ∀ d ∈ ((compute k).run nest { session := t }).2.deps,
            (start.after history).store.contains d = true) ∧
    ∀ (family : Computation S) (bounds : Bounds) (keepGoing : Bool) (k : S.Key) (v : S.Value k),
      family.Interrupts compute →
      ((start.after history).compute family bounds keepGoing k).1 = .ok v →
      ∀ (fresh : Session S) (changes : List (Change S)), fresh.store = {} →
        (∀ c ∈ changes, c.Proper) →
        (∀ i, S.isInjected i = true →
          Change.assignedBy i none changes =
            Change.assignedBy i none (history.flatMap Call.changes)) →
        ∃ rounds, ∀ bounds' : Bounds, rounds ≤ bounds'.rounds →
          ((fresh.begin changes).compute compute bounds' true k).1 = .ok v := by
  have hs := Session.after_consistent empty proper
  refine ⟨fun k v hk hv nest t hstore hlive => ?_, ?_⟩
  · obtain ⟨deps, hmem⟩ := Store.exists_mem_of_value? hv
    obtain ⟨q, hq, hqv, _⟩ := hs.computed _ hmem hk
    obtain ⟨hr, hd⟩ := Task.run_of_replay nest (lawful k) (r := { session := t }) hlive
      (hstore.symm ▸ hq) hqv
    refine ⟨hr, fun d hdep => Task.replay_contains hq d ?_⟩
    rw [hd] at hdep
    exact Listing.mem_distinct.mp hdep
  · intro family bounds keepGoing k v hfamily hv fresh changes hfresh hchanges hsame
    have hworks := Session.computeMany_works hfamily bounds keepGoing [k] (start.after history)
    have hc := hworks.steps.consistent hs
    refine ⟨_, fun bounds' hrounds => Session.compute_of_rebuilds lawful hc
      (Session.begin_rebuilds hfresh hchanges fun i hi => ?_)
      (Session.value?_of_compute hv) hrounds⟩
    have hempty := Store.consistent_empty compute
    rw [hworks.value?_injected hi, Session.value?_after faithful (empty ▸ hempty) hi proper, empty]
    exact (Store.value?_applyAll faithful (hfresh ▸ hempty) hi hchanges).trans
      (by rw [hfresh]; exact hsame i hi)

namespace Script

/-- A family in which a node has the value of the base of its name, and a mirror that of the node
of its name. -/
def relay : Computation space
  | .base _ => .done (.error .notReady)
  | .node name => .request (S := space) [NodeKey.base name] fun
      | .ok (.cons n _) => .done (.ok (.ok n))
      | .error e => .done (.error e)
  | .mirror name => .request (S := space) [NodeKey.node name] fun
      | .ok (.cons n _) => .done (.ok n)
      | .error e => .done (.error e)

theorem relay_lawful (k : NodeKey) : (relay k).Lawful := by
  cases k with
  | base name => exact .done _
  | node name => exact .request (fun | .cons _ _ => .done _) fun _ => .done
  | mirror name => exact .request (fun | .cons _ _ => .done _) fun _ => .done

theorem space_faithful : space.Faithful := by
  intro k hk a b hab
  cases k with
  | base name => exact (LawfulBEq.eq_of_beq : @BEq.beq Int64 _ a b = true → a = b) hab
  | node name => cases hk
  | mirror name => cases hk

/-- Sets a base. -/
def setBase (name : String) (n : Int64) : Change space := .inject (S := space) (.base name) n

theorem setBase_proper (name : String) (n : Int64) : ∀ c ∈ [setBase name n], c.Proper :=
  List.forall_mem_singleton.mpr rfl

/-- A history in which a base is set, read through a mirror, set again and read through its node,
and in which a cancelled request comes in between. -/
def relayHistory : List (Call space) :=
  [.commit [setBase "x" 1],
    .compute relay {} false (.mirror "x"),
    .commit [setBase "x" 2],
    .enter true,
    .computeMany relay {} true [NodeKey.mirror "x"],
    .enter false,
    .attempt relay {} (.node "x")]

theorem relayHistory_proper : ∀ c ∈ relayHistory, c.Proper relay := by
  have hrelay : relay.Interrupts relay := .refl relay_lawful
  intro c hc
  simp only [relayHistory, List.mem_cons, List.not_mem_nil, or_false] at hc
  rcases hc with rfl | rfl | rfl | rfl | rfl | rfl | rfl
  · exact setBase_proper "x" 1
  · exact hrelay
  · exact setBase_proper "x" 2
  · trivial
  · exact hrelay
  · trivial
  · exact hrelay

theorem incremental_eq_scratch_relay :
    ((relay (.node "x")).run (fun _ s => (.error .exhausted, s))
        { session := ({ world := [] } : Session space).after relayHistory }).1 = .ok (.ok 2) ∧
      ∃ rounds, ∀ bounds : Bounds, rounds ≤ bounds.rounds →
        ((({ world := [] } : Session space).begin [setBase "x" 2]).compute relay bounds true
          (.mirror "x")).1 = .ok (.ok 2) := by
  have hempty : ({ world := [] } : Session space).store = {} := rfl
  have h := incremental_eq_scratch relay_lawful space_faithful hempty relayHistory_proper
  have hcached : (({ world := [] } : Session space).after relayHistory).store.value? (.node "x") =
      some (.ok 2) := by
    with_unfolding_all rfl
  have hcomputed : ((({ world := [] } : Session space).after relayHistory).compute relay {} false
      (.mirror "x")).1 = .ok (.ok 2) := by
    with_unfolding_all rfl
  refine ⟨(h.1 (.node "x") (.ok 2) rfl hcached _ _ rfl (by with_unfolding_all rfl)).1,
    h.2 relay {} false (.mirror "x") (.ok 2) (.refl relay_lawful) hcomputed _ _ rfl
      (setBase_proper "x" 2) ?_⟩
  intro i _
  change (setBase "x" 2).assigned i none =
    (setBase "x" 2).assigned i ((setBase "x" 1).assigned i none)
  by_cases hi : NodeKey.base "x" = i
  · subst hi
    rfl
  · have hne : ∀ n before, (setBase "x" n).assigned i before = before :=
      fun n before => Change.assigned_inject_of_ne (S := space) (l := NodeKey.base "x") hi n before
    rw [hne, hne, hne]

end Script
end BuildAnalysis.Engine
