import BuildAnalysis.Proofs.Engine.History
import BuildAnalysis.Proofs.Engine.Interruption
import BuildAnalysis.Proofs.Engine.Outcome

/-!
# What happens in a history

What happens to an engine is that trials run and that changes are committed, one after the other:
each begins with the store and the world that the one before left. If the keys are computed by
restartable tasks, a trial begins without a value for its key. It adds the entry of its key and
nothing else, or it leaves the store alone; so a key that completes again was dropped by a commit in
between.
-/
namespace BuildAnalysis.Engine

variable {S : KeySpace}

inductive Happening (S : KeySpace) where
  | ran (e : Trial S)
  /-- Changes are committed. -/
  | changed (before after : Store S)

namespace Session

/-- What of an engine outlives a request. -/
def state (s : Session S) : Store S × S.World := (s.store, s.world)

/-- What happens in a call. -/
def happening (s : Session S) : Call S → List (Happening S)
  | .commit changes => [.changed s.store (s.begin changes).store]
  | .enter _ => []
  | .compute family bounds keepGoing k => (s.trials family bounds keepGoing [k]).map .ran
  | .computeMany family bounds keepGoing ks => (s.trials family bounds keepGoing ks).map .ran
  | .attempt family bounds k =>
    match s.store.value? k with
    | some _ => []
    | none =>
      if S.isInjected k then [] else [.ran (trial family (nestWithin family bounds) k s)]

/-- What happens in a history. -/
def happenings (s : Session S) : List (Call S) → List (Happening S)
  | [] => []
  | c :: cs => s.happening c ++ (s.serve c).happenings cs

end Session

namespace Happening

/-- Each thing begins with what the one before left. -/
def Leads : List (Happening S) → Store S × S.World → Store S × S.World → Prop
  | [], a, b => b = a
  | .ran e :: hs, a, b => e.before.state = a ∧ Leads hs e.after.state b
  | .changed before after :: hs, a, b => before = a.1 ∧ Leads hs (after, a.2) b

theorem Leads.append {hs gs : List (Happening S)} {a b c : Store S × S.World}
    (h : Leads hs a b) (h' : Leads gs b c) : Leads (hs ++ gs) a c := by
  induction hs generalizing a with
  | nil => exact h ▸ h'
  | cons x hs ih =>
      cases x with
      | ran e => exact ⟨h.1, ih h.2⟩
      | changed before after => exact ⟨h.1, ih h.2⟩

theorem Leads.split {hs gs : List (Happening S)} {a c : Store S × S.World}
    (h : Leads (hs ++ gs) a c) : ∃ b, Leads hs a b ∧ Leads gs b c := by
  induction hs generalizing a with
  | nil => exact ⟨a, rfl, h⟩
  | cons x hs ih =>
      cases x with
      | ran e =>
          obtain ⟨b, hhs, hgs⟩ := ih h.2
          exact ⟨b, ⟨h.1, hhs⟩, hgs⟩
      | changed before after =>
          obtain ⟨b, hhs, hgs⟩ := ih h.2
          exact ⟨b, ⟨h.1, hhs⟩, hgs⟩

variable (compute : Computation S) (nest : Nest S)

theorem leads_trialsOf (ks : List S.Key) (s : Session S) :
    Leads ((trialsOf compute nest ks s).map .ran) s.state
      (evaluateAll compute nest ks s).2.state := by
  induction ks generalizing s with
  | nil => rfl
  | cons k ks ih => exact ⟨rfl, ih _⟩

theorem state_settle {keepGoing : Bool} {es : List (Evaluated S)} {c : Schedule S}
    {s t : Session S} {result : Except (RequestError S) (Schedule S)}
    (hsettle : settle keepGoing es c s = (result, t)) : t.state = s.state := by
  obtain ⟨log, hlog⟩ := settle_session keepGoing es c s
  obtain rfl : t = { s with log := log } := by rw [← hlog, hsettle]
  rfl

theorem leads_trialsWithin (keepGoing : Bool) (rounds : Nat) (c : Schedule S) (s : Session S) :
    Leads ((trialsWithin compute nest keepGoing rounds c s).map .ran) s.state
      (runRounds compute nest keepGoing rounds c s).2.state := by
  induction rounds, c, s using rounds_induction compute nest keepGoing with
  | out => rfl
  | ended _ _ _ _ hc =>
      rw [trialsWithin_ended hc, runRounds_ended hc]
      rfl
  | failed _ _ s c' frontier _ _ hc hsettle =>
      rw [trialsWithin_go_error hc hsettle, runRounds_go_error hc hsettle, state_settle hsettle]
      exact leads_trialsOf compute nest frontier (s.announce c' frontier)
  | next _ _ s c' frontier _ _ hc hsettle ih =>
      rw [trialsWithin_go hc hsettle, runRounds_go hc hsettle, List.map_append]
      rw [state_settle hsettle] at ih
      exact (leads_trialsOf compute nest frontier (s.announce c' frontier)).append ih

theorem leads_trials (s : Session S) (bounds : Bounds) (keepGoing : Bool) (ks : List S.Key) :
    Leads ((s.trials compute bounds keepGoing ks).map .ran) s.state
      (s.computeMany compute bounds keepGoing ks).2.state := by
  have hrun := leads_trialsWithin compute (nestWithin compute bounds) keepGoing bounds.rounds
    (s.schedule ks) s
  have hstate : (s.computeMany compute bounds keepGoing ks).2.state =
      (s.run compute bounds keepGoing ks).2.state := by
    rw [Session.computeMany_eq]
    split
    next e t ht => exact (congrArg (fun p => p.2.state) ht).symm
    next t ht => exact (congrArg (fun p => p.2.state) ht).symm
  rw [hstate]
  exact hrun

theorem leads_happening (s : Session S) (c : Call S) :
    Leads (s.happening c) s.state (s.serve c).state := by
  cases c with
  | commit changes => exact ⟨rfl, rfl⟩
  | enter cancelled => rfl
  | compute family bounds keepGoing k => exact leads_trials family s bounds keepGoing [k]
  | computeMany family bounds keepGoing ks => exact leads_trials family s bounds keepGoing ks
  | attempt family bounds k =>
      simp only [Session.happening, Session.serve, Session.attempt]
      cases s.store.value? k with
      | some v => rfl
      | none =>
          simp only
          split
          next => rfl
          next =>
            refine ⟨rfl, ?_⟩
            simp only [trial, Leads]
            split
            all_goals
              next hr => rw [hr]

theorem leads_happenings (s : Session S) (history : List (Call S)) :
    Leads (s.happenings history) s.state (s.after history).state := by
  induction history generalizing s with
  | nil => rfl
  | cons c cs ih => exact (leads_happening s c).append (ih _)

end Happening

/-! ### Restartable keys -/

/-- The keys that are computed have restartable tasks, whatever their effects. -/
def Computation.Restartable (compute : Computation S) : Prop :=
  ∀ k, S.isInjected k = false → Task.Restartable (fun _ => True) [] (compute k)

/-- The tasks of the first family are those of the second, cancelled from outside anywhere. -/
def Computation.Cancels (family compute : Computation S) : Prop :=
  ∀ k, (family k).uninterrupted = compute k

/-- The tasks of a call are those of a family, cancelled or not. -/
def Call.Cancels (compute : Computation S) : Call S → Prop
  | .commit _ => True
  | .enter _ => True
  | .compute family _ _ _ => family.Cancels compute
  | .computeMany family _ _ _ => family.Cancels compute
  | .attempt family _ _ => family.Cancels compute

theorem Computation.Restartable.suspends {family compute : Computation S}
    (h : compute.Restartable) (hfamily : family.Cancels compute) : family.SuspendsAtRequests :=
  fun k hk => Task.Restartable.suspends (hfamily k ▸ h k hk)

namespace Trial

/-- The trial is one of a key of the family, cancelled from outside or not. -/
def Of (compute : Computation S) (e : Trial S) : Prop :=
  ∃ (family : Computation S) (nest : Nest S) (k : S.Key) (s : Session S),
    S.isInjected k = false ∧ family.Cancels compute ∧ nest.Grows ∧ e = trial family nest k s

variable {compute : Computation S} {e : Trial S}

theorem Of.isInjected (h : e.Of compute) : S.isInjected e.key = false := by
  obtain ⟨_, _, _, _, hk, _, _, rfl⟩ := h
  exact hk

theorem Of.runsTo (h : e.Of compute) (hcompute : compute.Restartable) :
    ∃ result r, Task.RunsTo (compute e.key) { session := e.before } result r ∧
      e.Ends result r := by
  obtain ⟨family, nest, k, s, hk, hfamily, _, rfl⟩ := h
  have hrun := Task.runsTo_uninterrupted nest (hfamily k ▸ hcompute k hk) { session := s }
  rw [hfamily k] at hrun
  exact ⟨_, _, hrun, trial_ends family nest k s⟩

theorem Of.sound (h : e.Of compute) (hcompute : compute.Restartable) : e.Sound := by
  obtain ⟨family, nest, k, s, hk, hfamily, hnest, rfl⟩ := h
  exact (fair_trial (hcompute.suspends hfamily) hnest hk s).sound

/-- What a trial does to the store: it leaves it alone, or it inserts the value of its key. -/
theorem Of.store (h : e.Of compute) (hcompute : compute.Restartable) :
    (∀ v, e.outcome ≠ .done v) ∧ e.after.store = e.before.store ∨
      ∃ v, e.outcome = .done (e.before.store.insertComputed e.key v e.requested).2 ∧
        e.after.store = (e.before.store.insertComputed e.key v e.requested).1 := by
  obtain ⟨result, r, hrun, hrequested, hends⟩ := h.runsTo hcompute
  obtain ⟨es, hleaves, _⟩ :=
    (hcompute e.key h.isInjected).runsTo_leaves (fun _ => ⟨trivial, trivial⟩) hrun
  have hstore : r.session.store = e.before.store := hleaves.store
  cases result with
  | ok v =>
      refine .inr ⟨v, ?_, ?_⟩
      · rw [hends.1, hstore, hrequested]
      · rw [hends.2, ← hstore, hrequested]
  | error x =>
      cases x with
      | notReady =>
          refine .inl ⟨fun v hv => ?_, by rw [hends.2, hstore]⟩
          rw [hends.1] at hv
          cases hv
      | cancelled =>
          refine .inl ⟨fun v hv => ?_, by rw [hends.2, hstore]⟩
          rw [hends.1] at hv
          cases hv

theorem Of.contains_after (h : e.Of compute) (hcompute : compute.Restartable) {l : S.Key}
    (hl : e.after.store.contains l = true) : l = e.key ∨ e.before.store.contains l = true := by
  rcases h.store hcompute with ⟨_, hstore⟩ | ⟨v, _, hstore⟩
  · exact .inr (hstore ▸ hl)
  · rw [hstore] at hl
    cases hold : e.before.store.value? e.key with
    | some old =>
        rw [Store.insertComputed_of_some hold] at hl
        exact .inr hl
    | none =>
        rw [Store.insertComputed_of_none hold, Store.contains_iff] at hl
        rw [Store.contains_iff]
        simpa [or_comm] using hl

/-- The trial begins without a value for its key. -/
def Fresh (e : Trial S) : Prop := e.before.store.contains e.key = false

/-- A trial that begins without a value adds the entry of its key or leaves the store alone. -/
theorem Of.entries (h : e.Of compute) (hcompute : compute.Restartable) (fresh : e.Fresh) :
    ((∀ v, e.outcome ≠ .done v) → e.after.store = e.before.store) ∧
      ∀ v, e.outcome = .done v →
        e.after.store.entries = e.before.store.entries ++ [⟨e.key, v, e.requested⟩] := by
  have hnone : e.before.store.value? e.key = none := by
    simpa [Fresh, Store.contains] using fresh
  rcases h.store hcompute with ⟨houtcome, hstore⟩ | ⟨v, houtcome, hstore⟩
  · exact ⟨fun _ => hstore, fun v hv => absurd hv (houtcome v)⟩
  · refine ⟨fun hsuspended => absurd houtcome (hsuspended _), fun w hw => ?_⟩
    rw [houtcome] at hw
    cases hw
    rw [hstore, Store.insertComputed_of_none hnone]

end Trial

section
variable {family compute : Computation S} (hcompute : compute.Restartable)
  (hfamily : family.Cancels compute) {nest : Nest S} (hnest : nest.Grows)

include hfamily hnest in
theorem of_trial {k : S.Key} (hk : S.isInjected k = false) (s : Session S) :
    (trial family nest k s).Of compute := ⟨family, nest, k, s, hk, hfamily, hnest, rfl⟩

include hcompute hfamily hnest in
/-- Distinct keys without a value are run one after the other: each still has none when it is its
turn. -/
theorem fresh_trialsOf {ks : List S.Key} (hks : ∀ k ∈ ks, S.isInjected k = false)
    (distinct : ks.Nodup) {s : Session S} (hnone : ∀ k ∈ ks, s.store.contains k = false) :
    ∀ e ∈ trialsOf family nest ks s, e.Of compute ∧ e.Fresh := by
  induction ks generalizing s with
  | nil => simp [trialsOf]
  | cons k ks ih =>
      obtain ⟨hk, hrest⟩ := List.forall_mem_cons.mp hks
      obtain ⟨hnotMem, hdistinct⟩ := List.nodup_cons.mp distinct
      obtain ⟨hknone, hksnone⟩ := List.forall_mem_cons.mp hnone
      have hof := of_trial hfamily hnest hk s
      refine List.forall_mem_cons.mpr ⟨⟨hof, hknone⟩, ih hrest hdistinct fun l hl => ?_⟩
      -- The first trial stores no key but its own, from which the others differ.
      by_contra hcached
      rcases hof.contains_after hcompute (by simpa using hcached) with heq | hbefore
      · have hlk : l = k := heq
        exact hnotMem (hlk ▸ hl)
      · have hlnone : s.store.contains l = true := hbefore
        rw [hksnone l hl] at hlnone
        cases hlnone

theorem nodup_settle (keepGoing : Bool) (es : List (Evaluated S)) {c c' : Schedule S}
    {s t : Session S} (distinct : c.pending.Nodup) (h : settle keepGoing es c s = (.ok c', t)) :
    c'.pending.Nodup := by
  induction es generalizing c s with
  | nil =>
      cases h
      exact distinct
  | cons e es ih =>
      obtain ⟨k, outcome⟩ := e
      cases outcome with
      | done value =>
          simp only [settle] at h
          split at h
          next => cases h
          next => exact ih (distinct.filter _) h
      | notReady missing => exact ih (Listing.nodup_addAll distinct missing) h
      | cancelled => cases h

include hcompute hfamily hnest in
theorem fresh_round {c c' : Schedule S} {s : Session S} {frontier : List S.Key}
    (distinct : c.pending.Nodup) (hc : c.opening s = .go c' frontier) :
    ∀ e ∈ trialsOf family nest frontier (s.announce c' frontier), e.Of compute ∧ e.Fresh := by
  obtain ⟨rfl, rfl, hcomputed⟩ := Schedule.of_opening hc
  have hdistinct : (c.refresh s.store).pending.Nodup := distinct.filter _
  have hnone : ∀ k ∈ (c.refresh s.store).frontier s.store, s.store.contains k = false :=
    fun k hk => (Tracks.mem_pending_refresh.mp (List.mem_filter.mp hk).1).2
  exact fresh_trialsOf hcompute hfamily hnest hcomputed (hdistinct.filter _) hnone

include hcompute hfamily hnest in
theorem fresh_trialsWithin (keepGoing : Bool) (rounds : Nat) {c : Schedule S}
    (distinct : c.pending.Nodup) (s : Session S) :
    ∀ e ∈ trialsWithin family nest keepGoing rounds c s, e.Of compute ∧ e.Fresh := by
  induction rounds, c, s using rounds_induction family nest keepGoing with
  | out => simp [trialsWithin]
  | ended _ _ _ _ hc => simp [trialsWithin_ended hc]
  | failed _ _ _ _ _ _ _ hc hsettle =>
      rw [trialsWithin_go_error hc hsettle]
      exact fresh_round hcompute hfamily hnest distinct hc
  | next _ _ _ _ _ _ _ hc hsettle ih =>
      have hround := fresh_round hcompute hfamily hnest distinct hc
      rw [trialsWithin_go hc hsettle]
      obtain ⟨rfl, -, -⟩ := Schedule.of_opening hc
      exact List.forall_mem_append.mpr
        ⟨hround, ih (nodup_settle keepGoing _ (distinct.filter _) hsettle)⟩

include hcompute hfamily in
theorem fresh_trials (bounds : Bounds) (keepGoing : Bool) (ks : List S.Key) (s : Session S) :
    ∀ e ∈ s.trials family bounds keepGoing ks, e.Of compute ∧ e.Fresh :=
  fresh_trialsWithin hcompute hfamily (nestWithin_grows (hcompute.suspends hfamily) bounds)
    keepGoing bounds.rounds (Listing.nodup_addAll List.nodup_nil _) s

end

namespace Happening

variable {compute : Computation S}

theorem fresh_happenings (hcompute : compute.Restartable) (s : Session S)
    {history : List (Call S)} (h : ∀ c ∈ history, c.Cancels compute) :
    ∀ e, .ran e ∈ s.happenings history → e.Of compute ∧ e.Fresh := by
  induction history generalizing s with
  | nil => intro e he; cases he
  | cons c cs ih =>
      intro e he
      rcases List.mem_append.mp he with he | he
      · have hc := h c List.mem_cons_self
        cases c with
        | commit changes => simp [Session.happening] at he
        | enter cancelled => cases he
        | compute family bounds keepGoing k =>
            obtain ⟨e', he', heq⟩ := List.mem_map.mp he
            cases heq
            exact fresh_trials hcompute hc bounds keepGoing [k] s e he'
        | computeMany family bounds keepGoing ks =>
            obtain ⟨e', he', heq⟩ := List.mem_map.mp he
            cases heq
            exact fresh_trials hcompute hc bounds keepGoing ks s e he'
        | attempt family bounds k =>
            simp only [Session.happening] at he
            split at he
            next => cases he
            next hnone =>
              split at he
              next => cases he
              next hk =>
                cases List.mem_singleton.mp he
                have hgrows := nestWithin_grows (hcompute.suspends hc) bounds
                exact ⟨of_trial hc hgrows (by simpa using hk) s, by
                  simp [Trial.Fresh, trial, Store.contains, hnone]⟩
      · exact ih _ (fun d hd => h d (List.mem_cons_of_mem _ hd)) e he

theorem Leads.exists_changed {hs : List (Happening S)} {a b : Store S × S.World}
    (h : Leads hs a b) (keeps : ∀ e, .ran e ∈ hs → e.before.store.Within e.after.store)
    {k : S.Key} (ha : a.1.contains k = true) (hb : b.1.contains k = false) :
    ∃ before after, .changed before after ∈ hs ∧ before.contains k = true ∧
      after.contains k = false := by
  induction hs generalizing a with
  | nil =>
      rw [show b = a from h, ha] at hb
      cases hb
  | cons x hs ih =>
      have hrest := fun e he => keeps e (List.mem_cons_of_mem x he)
      cases x with
      | ran e =>
          obtain ⟨rfl, h⟩ := h
          have hafter := (keeps e List.mem_cons_self).contains ha
          obtain ⟨before, after, hmem, hdrop⟩ := ih h hrest hafter
          exact ⟨before, after, List.mem_cons_of_mem _ hmem, hdrop⟩
      | changed before after =>
          obtain ⟨rfl, h⟩ := h
          by_cases hafter : after.contains k = true
          · obtain ⟨before', after', hmem, hdrop⟩ := ih h hrest hafter
            exact ⟨before', after', List.mem_cons_of_mem _ hmem, hdrop⟩
          · exact ⟨a.1, after, List.mem_cons_self, ha, by simpa using hafter⟩

/-- Between a completed trial of a key and a later trial of it a commit drops the key. -/
theorem exists_dropped (hcompute : compute.Restartable) {s : Session S} {history : List (Call S)}
    (h : ∀ c ∈ history, c.Cancels compute) {xs ys zs : List (Happening S)} {e₁ e₂ : Trial S}
    (hh : s.happenings history = xs ++ .ran e₁ :: (ys ++ .ran e₂ :: zs)) (same : e₂.key = e₁.key)
    {v : S.Value e₁.key} (completed : e₁.outcome = .done v) :
    ∃ before after, .changed before after ∈ ys ∧ before.contains e₁.key = true ∧
      after.contains e₁.key = false := by
  have hall := fresh_happenings hcompute s h
  rw [hh] at hall
  have hran : ∀ e, .ran e ∈ ys → e.before.store.Within e.after.store := fun e he =>
    ((hall e (by simp [he])).1.sound hcompute).grows.store
  have hleads := leads_happenings s history
  rw [hh] at hleads
  obtain ⟨_, _, hleads⟩ := hleads.split
  obtain ⟨b, hys, hzs⟩ := hleads.2.split
  have hstored : e₁.after.store.contains e₁.key = true :=
    Store.contains_of_value? (((hall e₁ (by simp)).1.sound hcompute).done v completed)
  have hlost : b.1.contains e₁.key = false := by
    rw [← hzs.1, ← same]
    exact (hall e₂ (by simp)).2
  exact hys.exists_changed hran hstored hlost

end Happening

end BuildAnalysis.Engine
