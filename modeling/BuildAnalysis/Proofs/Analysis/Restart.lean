import BuildAnalysis.Proofs.Analysis.Composition
import BuildAnalysis.Proofs.Analysis.Condition
import BuildAnalysis.Proofs.Engine.Happening

/-!
# Evaluations that are run again

The evaluation of a key is run again from the start whenever a key that it requests has no value. An
attempt that ends without a value leaves nothing behind: what it found is dropped, and the world has
seen it take permits and give them back and nothing else. An attempt that ends with a value or a
failure adds the value of its key to the store, and delivers what it has found by then, once and in
order.
-/
namespace BuildAnalysis

open Engine (Happening Running Store Trial)
open Engine.Demand (restartable_pure restartable_lift)
open Engine.Task (Leaves RunsTo)

/-- The effect takes a permit or gives one back. -/
def Idle : analysisSpace.Effect → Prop := fun e : AnalysisEffect => e = .work ∨ e = .rest

/-- What analysis has shown of itself: what it has delivered, and the targets it is done with. -/
def AnalysisWorld.shown (w : AnalysisWorld) : List Event × List Label := (w.events, w.progress)

def shows (es : List AnalysisEffect) (w : AnalysisWorld) : List Event × List Label :=
  AnalysisWorld.shown (analysisSpace.worldAfter w es)

theorem shows_idle {es : List AnalysisEffect} (h : ∀ e ∈ es, Idle e) (w : AnalysisWorld) :
    shows es w = w.shown := by
  induction es generalizing w with
  | nil => rfl
  | cons e es ih =>
      obtain ⟨he, hes⟩ := List.forall_mem_cons.mp h
      have hfirst : (AnalysisWorld.perform e w).1.shown = w.shown := by
        rcases he with rfl | rfl <;> rfl
      exact (ih hes _).trans hfirst

theorem shows_deliver (events : List Event) (w : AnalysisWorld) :
    shows (events.map AnalysisEffect.deliver) w = (w.events ++ events, w.progress) := by
  induction events generalizing w with
  | nil => exact congrArg (·, w.progress) (List.append_nil w.events).symm
  | cons e es ih =>
      have hrest := ih (AnalysisWorld.perform (.deliver e) w).1
      exact hrest.trans (congrArg (·, w.progress) (List.append_assoc w.events [e] es))

theorem shows_nothing (w : AnalysisWorld) : shows [] w = (w.events, w.progress ++ []) :=
  congrArg (w.events, ·) (List.append_nil w.progress).symm

/-- What an evaluation ends with: the value of its key, and all that is to be delivered. -/
def concluded {α : Type} (report : Findings → Abort → Findings × TargetFailure) :
    Except Abort α × Findings → Except Failure α × List Event
  | (.ok a, f) => (.ok a, f.events)
  | (.error x, f) => (.error (.ofTargetFailure (report f x).2), (report f x).1.events)

namespace AnalysisKey

/-- An attempt on a key that began on a store came to a value, and what it had buffered by then. -/
inductive Attempted (services : Option Services) (st : Store analysisSpace) :
    (k : AnalysisKey) → k.Value → List Event → Prop
  | target {k : TargetKey} {s : Services} {p : Except Abort TargetValue × Findings}
      {r r' : Running analysisSpace} (hs : services = some s) (hr : r.session.store = st)
      (h : RunsTo ((k.evaluate s).runFrom (initial s.settings)).run r (.ok p) r') :
      Attempted services st (.target k) (concluded k.reportFailure p).1
        (concluded k.reportFailure p).2
  | aspect {k : AspectKey} {s : Services} {p : Except Abort AspectValue × Findings}
      {r r' : Running analysisSpace} (hs : services = some s) (hr : r.session.store = st)
      (h : RunsTo ((k.evaluate s).runFrom {}).run r (.ok p) r') :
      Attempted services st (.aspect k) (concluded k.reportFailure p).1
        (concluded k.reportFailure p).2
  /-- Without services nothing is evaluated. -/
  | targetUnserved {k : TargetKey} (hs : services = none) :
      Attempted services st (.target k) (.error Services.missing) []
  | aspectUnserved {k : AspectKey} (hs : services = none) :
      Attempted services st (.aspect k) (.error Services.missing) []

def progress : (k : AnalysisKey) → k.Value → List Label
  | .target k, .ok _ => [k.label]
  | _, _ => []

/-- The key is that of a target or of an aspect. -/
def IsEvaluated (k : AnalysisKey) : Prop := (∃ t, k = .target t) ∨ ∃ a, k = .aspect a

end AnalysisKey

/-! ### The tasks of analysis are restartable -/

/-- The implementations of the installed services suspend only at requests, and have no effects but
on permits. -/
def ServicesRestartable (services : Option Services) : Prop :=
  ∀ s ∈ services, s.implementations.Have (Engine.Demand.Restartable Idle)

namespace AnalysisKey

variable {services : Option Services}

theorem inSection_restartable {α : Type} (unblock : Bool) {d : Demand α}
    (h : Engine.Demand.Restartable Idle d) :
    Engine.Task.Restartable Idle [] (inSection unblock d) :=
  .perform (.inl rfl) (.observe fun _ => Engine.Task.Restartable.bind h
    (fun a => .observe fun _ => .perform (.inr rfl) (.done_ok a))
    fun e => .observe fun _ => .perform (.inr rfl) (.done_error e))

theorem computeTarget_restartable (h : ServicesRestartable services) (k : TargetKey) :
    Engine.Demand.Restartable (fun _ => True) (computeTarget services k) := by
  unfold computeTarget
  split
  · exact restartable_pure _
  next s =>
    refine .bind (Engine.Task.Restartable.imp
      (inSection_restartable _ (k.evaluate_has (h s rfl) _)) fun _ _ => trivial) fun p => ?_
    obtain ⟨result, found⟩ := p
    cases result with
    | ok value =>
        exact .bind (restartable_lift (performAll_quiet _) fun _ => trivial) fun _ =>
          .bind (restartable_lift (.perform (.done _)) fun _ => trivial) fun _ =>
            restartable_pure _
    | error a =>
        exact .bind (restartable_lift (performAll_quiet _) fun _ => trivial) fun _ =>
          .bind (restartable_lift (.log (.done _)) fun _ => trivial) fun _ => restartable_pure _

theorem computeAspect_restartable (h : ServicesRestartable services) (k : AspectKey) :
    Engine.Demand.Restartable (fun _ => True) (computeAspect services k) := by
  unfold computeAspect
  split
  · exact restartable_pure _
  next s =>
    refine .bind (Engine.Demand.Restartable.imp (k.evaluate_has (h s rfl) _)
      fun _ _ => trivial) fun p => ?_
    obtain ⟨result, found⟩ := p
    cases result with
    | ok value =>
        exact .bind (restartable_lift (performAll_quiet _) fun _ => trivial) fun _ =>
          restartable_pure _
    | error a =>
        exact .bind (restartable_lift (performAll_quiet _) fun _ => trivial) fun _ =>
          restartable_pure _

theorem computation_restartable (h : ServicesRestartable services) :
    Engine.Computation.Restartable (computation services) := by
  intro k hk
  cases k with
  | package p => cases hk
  | registry => cases hk
  | configuration k => exact .done_ok _
  | fragments l =>
      exact computeFragments_has (D := Engine.Demand.Restartable fun _ => True) l
  | toolchains k =>
      exact computeToolchains_has (D := Engine.Demand.Restartable fun _ => True) k
  | target k => exact computeTarget_restartable h k
  | aspect k => exact computeAspect_restartable h k

/-! ### Runs of the tasks of analysis -/

theorem runsTo_performAll {es : List AnalysisEffect} {r r' : Running analysisSpace} {u : Unit}
    (h : RunsTo (performAll es) r u r') : Leaves r.session r'.session es := by
  induction es generalizing r with
  | nil => exact Engine.Task.leaves_meanwhile h.2
  | cons e es ih =>
      obtain ⟨r₁, hr₁, h⟩ := h
      have hperform : Leaves r₁.session (r₁.session.perform e) [e] := ⟨rfl, rfl, rfl⟩
      exact ((Engine.Task.leaves_meanwhile hr₁).trans hperform).trans (ih h)

theorem runsTo_deliver_bind {α : Type} {f : Findings} {d : Demand α}
    {r r' : Running analysisSpace} {x : Except Engine.Suspension α}
    (h : RunsTo (do Engine.Demand.lift (deliver f); d : Demand α).run r x r') :
    ∃ q, Leaves r.session q.session (f.events.map AnalysisEffect.deliver) ∧
      RunsTo d.run q x r' := by
  obtain ⟨y, q, hdeliver, hd⟩ := Engine.Task.RunsTo.of_bind h
  obtain ⟨u, q₁, hall, hdone⟩ := Engine.Task.RunsTo.of_bind hdeliver
  obtain ⟨rfl, hq⟩ := hdone
  exact ⟨q, (runsTo_performAll hall).meanwhile hq, hd⟩

theorem runsTo_perform_pure {α : Type} {e : AnalysisEffect} {a : α}
    {r r' : Running analysisSpace} {x : Except Engine.Suspension α}
    (h : RunsTo (do Engine.Demand.lift (.perform e (.done ())); pure a : Demand α).run r x r') :
    x = .ok a ∧ Leaves r.session r'.session [e] := by
  obtain ⟨r₁, hr₁, rfl, hr⟩ := h
  have hperform : Leaves r₁.session (r₁.session.perform e) [e] := ⟨rfl, rfl, rfl⟩
  exact ⟨rfl, ((Engine.Task.leaves_meanwhile hr₁).trans hperform).trans
    (Engine.Task.leaves_meanwhile hr)⟩

theorem runsTo_log_pure {α : Type} {entry : LogEntry} {a : α}
    {r r' : Running analysisSpace} {x : Except Engine.Suspension α}
    (h : RunsTo (do Engine.Demand.lift (.log entry (.done ())); pure a : Demand α).run r x r') :
    x = .ok a ∧ Leaves r.session r'.session [] := by
  obtain ⟨r₁, hr₁, rfl, hr⟩ := h
  have hlog := Engine.Task.leaves_logged r₁.session (r₁.session.log ++ [entry])
  exact ⟨rfl, ((Engine.Task.leaves_meanwhile hr₁).trans hlog).trans
    (Engine.Task.leaves_meanwhile hr)⟩

/-- A section runs what it is a section of. -/
theorem runsTo_inSection {α : Type} {unblock : Bool} {d : Demand α}
    {r r' : Running analysisSpace} {x : Except Engine.Suspension α}
    (h : RunsTo (inSection unblock d) r x r') :
    ∃ q q', q.session.store = r.session.store ∧ RunsTo d.run q x q' := by
  obtain ⟨r₁, hr₁, r₂, hr₂, h⟩ := h
  have h : RunsTo (Engine.Task.bind d.run fun y =>
      .observe r₂.observer fun _ => .perform .rest (.done y)) _ x r' := h
  obtain ⟨y, q', hd, _, _, _, _, rfl, _⟩ := Engine.Task.RunsTo.of_bind h
  have hfirst := (Engine.Task.leaves_meanwhile hr₁).store
  have hsecond := (Engine.Task.leaves_meanwhile hr₂).store
  refine ⟨_, q', ?_, hd⟩
  exact hsecond.trans hfirst

/-- How a run of the task of a key ends: it has shown nothing, or what was found by the end and the
progress that was made. -/
def Ends (services : Option Services) (k : AnalysisKey) (r r' : Running analysisSpace) :
    Except Engine.Suspension k.Value → Prop
  | .error _ => AnalysisWorld.shown r'.session.world = AnalysisWorld.shown r.session.world
  | .ok v => ∃ events, Attempted services r.session.store k v events ∧
    AnalysisWorld.shown r'.session.world =
      ((AnalysisWorld.shown r.session.world).1 ++ events,
        (AnalysisWorld.shown r.session.world).2 ++ k.progress v)

theorem shown_of_leaves {s s' : AnalysisSession} {es : List AnalysisEffect}
    (h : Leaves s s' es) : AnalysisWorld.shown s'.world = shows es s.world :=
  congrArg AnalysisWorld.shown h.world

theorem shown_of_delivered {s s' s'' t : AnalysisSession} {es fs : List AnalysisEffect}
    {events : List Event} {labels : List Label} (h : Leaves s s' es) (idle : ∀ e ∈ es, Idle e)
    (hdelivered : Leaves s' s'' (events.map AnalysisEffect.deliver)) (hlast : Leaves s'' t fs)
    (hfs : ∀ w, shows fs w = (w.events, w.progress ++ labels)) :
    AnalysisWorld.shown t.world =
      ((AnalysisWorld.shown s.world).1 ++ events, (AnalysisWorld.shown s.world).2 ++ labels) := by
  have hfirst := (shown_of_leaves h).trans (shows_idle idle s.world)
  have hsecond := (shown_of_leaves hdelivered).trans (shows_deliver events s'.world)
  have hthird := (shown_of_leaves hlast).trans (hfs s''.world)
  rw [hthird, ← hfirst]
  exact congrArg (fun p : List Event × List Label => (p.1, p.2 ++ labels)) hsecond

theorem ends_of_unserved {k : AnalysisKey} {v : k.Value} {r r' : Running analysisSpace}
    (h : Attempted services r.session.store k v []) (hprogress : k.progress v = [])
    (hr : r.Meanwhile r') : Ends services k r r' (.ok v) := by
  refine ⟨[], h, ?_⟩
  rw [hprogress, List.append_nil, List.append_nil]
  exact shown_of_leaves (Engine.Task.leaves_meanwhile hr)

theorem ends_target (h : ServicesRestartable services) {k : TargetKey}
    {r r' : Running analysisSpace} {x : Except Engine.Suspension (Except Failure TargetValue)}
    (hrun : RunsTo (computeTarget services k).run r x r') :
    Ends services (.target k) r r' x := by
  unfold computeTarget at hrun
  split at hrun
  next =>
    obtain ⟨rfl, hr⟩ := hrun
    exact ends_of_unserved (.targetUnserved rfl) rfl hr
  next s =>
    obtain ⟨y, q, hsection, hrest⟩ := Engine.Task.RunsTo.of_bind hrun
    have hrestartable := inSection_restartable s.settings.unblockWhileFetching
      (k.evaluate_has (h s rfl) (initial s.settings))
    obtain ⟨es, hes, hidle⟩ :=
      hrestartable.runsTo_leaves (fun _ => ⟨.inr rfl, .inl rfl⟩) hsection
    cases y with
    | error e =>
        obtain ⟨rfl, hq⟩ := hrest
        exact (shown_of_leaves (hes.meanwhile hq)).trans (shows_idle hidle _)
    | ok p =>
        -- Nothing is delivered before the evaluation has come to its end.
        obtain ⟨q₁, q₂, hstore, heval⟩ := runsTo_inSection hsection
        obtain ⟨result, found⟩ := p
        cases result with
        | ok value =>
            obtain ⟨q₃, hdelivered, hlast⟩ := runsTo_deliver_bind hrest
            obtain ⟨rfl, hfinished⟩ := runsTo_perform_pure hlast
            exact ⟨_, .target rfl hstore heval,
              shown_of_delivered hes hidle hdelivered hfinished fun _ => rfl⟩
        | error a =>
            obtain ⟨q₃, hdelivered, hlast⟩ := runsTo_deliver_bind hrest
            obtain ⟨rfl, hlogged⟩ := runsTo_log_pure hlast
            exact ⟨_, .target rfl hstore heval,
              shown_of_delivered hes hidle hdelivered hlogged shows_nothing⟩

theorem ends_aspect (h : ServicesRestartable services) {k : AspectKey}
    {r r' : Running analysisSpace} {x : Except Engine.Suspension (Except Failure AspectValue)}
    (hrun : RunsTo (computeAspect services k).run r x r') :
    Ends services (.aspect k) r r' x := by
  unfold computeAspect at hrun
  split at hrun
  next =>
    obtain ⟨rfl, hr⟩ := hrun
    exact ends_of_unserved (.aspectUnserved rfl) rfl hr
  next s =>
    obtain ⟨y, q, heval, hrest⟩ := Engine.Task.RunsTo.of_bind hrun
    obtain ⟨es, hes, hidle⟩ := Engine.Task.Restartable.runsTo_leaves
      (fun _ => ⟨.inr rfl, .inl rfl⟩) (k.evaluate_has (h s rfl) {}) heval
    cases y with
    | error e =>
        obtain ⟨rfl, hq⟩ := hrest
        exact (shown_of_leaves (hes.meanwhile hq)).trans (shows_idle hidle _)
    | ok p =>
        obtain ⟨result, found⟩ := p
        cases result with
        | ok value =>
            obtain ⟨q₃, hdelivered, rfl, hlast⟩ := runsTo_deliver_bind hrest
            exact ⟨_, .aspect rfl rfl heval, shown_of_delivered hes hidle hdelivered
              (Engine.Task.leaves_meanwhile hlast) shows_nothing⟩
        | error a =>
            obtain ⟨q₃, hdelivered, rfl, hlast⟩ := runsTo_deliver_bind hrest
            exact ⟨_, .aspect rfl rfl heval, shown_of_delivered hes hidle hdelivered
              (Engine.Task.leaves_meanwhile hlast) shows_nothing⟩

theorem ends_computation (h : ServicesRestartable services) {k : AnalysisKey}
    (hk : k.IsEvaluated) {r r' : Running analysisSpace} {x : Except Engine.Suspension k.Value}
    (hrun : RunsTo (computation services k) r x r') : Ends services k r r' x := by
  rcases hk with ⟨t, rfl⟩ | ⟨a, rfl⟩
  · exact ends_target h hrun
  · exact ends_aspect h hrun

end AnalysisKey

/-! ### What attempts leave behind -/

/-- What an attempt leaves behind: nothing if it ends without a value; else the entry of its key,
and what it has found. -/
structure Transparent (services : Option Services) (e : Trial analysisSpace) : Prop where
  fresh : e.before.store.contains e.key = false
  suspended : (∀ v, e.outcome ≠ .done v) → e.after.store = e.before.store ∧
    AnalysisWorld.shown e.after.world = AnalysisWorld.shown e.before.world
  missing : ∀ ms, e.outcome = .notReady ms →
    ms ≠ [] ∧ ms.Nodup ∧ ∀ m ∈ ms, e.after.store.contains m = false
  completed : ∀ v, e.outcome = .done v →
    e.after.store.entries = e.before.store.entries ++ [⟨e.key, v, e.requested⟩] ∧
    ∃ events, AnalysisKey.Attempted services e.before.store e.key v events ∧
      AnalysisWorld.shown e.after.world = ((AnalysisWorld.shown e.before.world).1 ++ events,
        (AnalysisWorld.shown e.before.world).2 ++ AnalysisKey.progress e.key v)

variable {services : Option Services}

theorem transparent_of_fresh (h : ServicesRestartable services) {e : Trial analysisSpace}
    (he : e.Of (AnalysisKey.computation services)) (fresh : e.Fresh)
    (hkey : AnalysisKey.IsEvaluated e.key) : Transparent services e := by
  have hcompute := AnalysisKey.computation_restartable h
  obtain ⟨hsuspended, hcompleted⟩ := he.entries hcompute fresh
  have hsound := he.sound hcompute
  obtain ⟨result, r, hrun, hrequested, hends⟩ := he.runsTo hcompute
  have hshown := AnalysisKey.ends_computation h hkey hrun
  refine ⟨fresh, fun hnone => ⟨hsuspended hnone, ?_⟩, fun ms hms => ?_, fun v hv => ?_⟩
  · cases result with
    | ok v => exact absurd hends.1 (hnone _)
    | error x =>
        cases x with
        | notReady => exact hends.2 ▸ hshown
        | cancelled => exact hends.2 ▸ hshown
  · obtain ⟨hne, hnodup, _, hfresh⟩ := hsound.missing ms hms
    have hstore := hsuspended fun v hv => by rw [hms] at hv; cases hv
    exact ⟨hne, hnodup, fun m hm => hstore ▸ hfresh m hm⟩
  · refine ⟨hcompleted v hv, ?_⟩
    cases result with
    | ok w =>
        obtain ⟨es, hleaves, _⟩ := (hcompute e.key he.isInjected).runsTo_leaves
          (fun _ => ⟨trivial, trivial⟩) hrun
        have hnone : r.session.store.value? e.key = none := by
          rw [hleaves.store]
          simpa [Trial.Fresh, Store.contains] using fresh
        have hv' := hends.1.symm.trans hv
        rw [Store.insertComputed_of_none hnone] at hv'
        cases hv'
        rw [hends.2]
        exact hshown
    | error x => cases x <;> exact absurd (hends.1.symm.trans hv) (by simp)

/-- Let an engine go through any history whose tasks may be cancelled from outside at any moment.
What happens to it is that attempts on keys run and that changes are committed, and nothing else. An
attempt on a target or on an aspect begins without a value for its key. If it ends without one, then
the store, what was delivered and the progress are as they were; if that is because it is not ready,
it names some keys, each once, that have no value. If it completes, then the store gains the entry
of its key, what the attempt buffered is delivered after what had been delivered before, and a
target that is analyzed makes progress once. Between an attempt that completes and any later one on
the same key, a commit has dropped the key. -/
theorem restarts_transparent (h : ServicesRestartable services) (start : AnalysisSession)
    {history : List (Engine.Call analysisSpace)}
    (hhistory : ∀ c ∈ history, c.Cancels (AnalysisKey.computation services)) :
    Happening.Leads (start.happenings history) start.state
      (Engine.Session.after start history).state ∧
    (∀ e, .ran e ∈ start.happenings history → AnalysisKey.IsEvaluated e.key →
      Transparent services e) ∧
    ∀ xs ys zs e₁ e₂, start.happenings history = xs ++ .ran e₁ :: (ys ++ .ran e₂ :: zs) →
      e₂.key = e₁.key → (∃ v, e₁.outcome = .done v) →
      ∃ before after, .changed before after ∈ ys ∧ before.contains e₁.key = true ∧
        after.contains e₁.key = false := by
  have hcompute := AnalysisKey.computation_restartable h
  refine ⟨Happening.leads_happenings start history, fun e he hkey => ?_,
    fun xs ys zs e₁ e₂ hsplit same hdone => ?_⟩
  · obtain ⟨hof, hfresh⟩ := Happening.fresh_happenings hcompute start hhistory e he
    exact transparent_of_fresh h hof hfresh hkey
  · obtain ⟨v, hv⟩ := hdone
    exact Happening.exists_dropped hcompute hhistory hsplit same hv

end BuildAnalysis

/-! An alias that is analyzed, dropped and analyzed again. -/

namespace BuildAnalysis.RestartSample

open BuiltinRules.AliasSample
open Engine (Happening Trial)

/-- What the alias waits for is computed between the attempts on it. Dropping the setting drops the
alias too. -/
def history : List (Engine.Call analysisSpace) :=
  [loading [package], .compute compute {} true (.target aliasKey),
    .commit [.invalidate (S := analysisSpace) (.target optKey)],
    .attempt compute {} (.target aliasKey), .compute compute {} true (.target aliasKey)]

def key : analysisSpace.Key := AnalysisKey.target aliasKey

/-- An attempt on the alias that completes, or one that is not ready. -/
def isAttempt (completes : Bool) : Happening analysisSpace → Bool
  | .ran e => decide (e.key = key) &&
    match e.outcome with
    | .done _ => completes
    | .notReady _ => !completes
    | .cancelled => false
  | .changed _ _ => false

theorem exists_done {h : Happening analysisSpace} (hh : isAttempt true h = true) :
    ∃ e, h = .ran e ∧ e.key = key ∧ ∃ v, e.outcome = .done v := by
  cases h with
  | ran e =>
      obtain ⟨hkey, hdone⟩ := (Bool.and_eq_true _ _).mp hh
      refine ⟨e, rfl, of_decide_eq_true hkey, ?_⟩
      cases houtcome : e.outcome with
      | done v => exact ⟨v, rfl⟩
      | _ => rw [houtcome] at hdone; cases hdone
  | changed before after => cases hh

theorem exists_notReady {h : Happening analysisSpace} (hh : isAttempt false h = true) :
    ∃ e, h = .ran e ∧ e.key = key ∧ ∃ ms, e.outcome = .notReady ms := by
  cases h with
  | ran e =>
      obtain ⟨hkey, hsuspended⟩ := (Bool.and_eq_true _ _).mp hh
      refine ⟨e, rfl, of_decide_eq_true hkey, ?_⟩
      cases houtcome : e.outcome with
      | notReady ms => exact ⟨ms, rfl⟩
      | _ => rw [houtcome] at hsuspended; cases hsuspended
  | changed before after => cases hh

theorem services_restartable : ServicesRestartable (some services) := by
  intro s hs
  obtain rfl := Option.some.inj hs
  exact BuiltinRules.implementations_have

theorem compute_cancels : Engine.Computation.Cancels compute compute :=
  compute_interrupts.uninterrupted

theorem history_cancels : ∀ c ∈ history, c.Cancels compute := by
  intro c hc
  simp only [history, List.mem_cons, List.not_mem_nil, or_false] at hc
  rcases hc with rfl | rfl | rfl | rfl | rfl
  · trivial
  · exact compute_cancels
  · trivial
  · exact compute_cancels
  · exact compute_cancels

/-- Whether the alias completes among the first so many happenings, and whether it does later. -/
theorem happenings_any :
    ((Engine.Session.happenings start history).take 10).any (isAttempt true) = true ∧
    ((Engine.Session.happenings start history).drop 10).any (isAttempt true) = true ∧
    (Engine.Session.happenings start history).any (isAttempt false) = true := by
  refine ⟨?_, ?_, ?_⟩ <;> decide +kernel

/-- The alias completes twice. -/
theorem happenings_eq : ∃ xs ys zs e₁ e₂, Engine.Session.happenings start history =
      xs ++ .ran e₁ :: (ys ++ .ran e₂ :: zs) ∧ e₂.key = e₁.key ∧
      (∃ v, e₁.outcome = .done v) ∧ ∃ v, e₂.outcome = .done v := by
  obtain ⟨h₁, hmem₁, hdone₁⟩ := List.any_eq_true.mp happenings_any.1
  obtain ⟨h₂, hmem₂, hdone₂⟩ := List.any_eq_true.mp happenings_any.2.1
  obtain ⟨e₁, rfl, hkey₁, hv₁⟩ := exists_done hdone₁
  obtain ⟨e₂, rfl, hkey₂, hv₂⟩ := exists_done hdone₂
  obtain ⟨xs, ys, hfirst⟩ := List.append_of_mem hmem₁
  obtain ⟨ys', zs, hsecond⟩ := List.append_of_mem hmem₂
  refine ⟨xs, ys ++ ys', zs, e₁, e₂, ?_, hkey₂.trans hkey₁.symm, hv₁, hv₂⟩
  rw [← List.take_append_drop 10 (Engine.Session.happenings start history), hfirst, hsecond]
  simp only [List.append_assoc, List.cons_append]

theorem restarts_transparent_alias :
    ServicesRestartable (some services) ∧ (∀ c ∈ history, c.Cancels compute) ∧
    (∃ e, .ran e ∈ Engine.Session.happenings start history ∧ e.key = key ∧
      (∃ ms, e.outcome = .notReady ms) ∧ Transparent (some services) e) ∧
    ∃ xs ys zs e₁ e₂, Engine.Session.happenings start history =
        xs ++ .ran e₁ :: (ys ++ .ran e₂ :: zs) ∧ e₂.key = e₁.key ∧
      (∃ v, e₁.outcome = .done v) ∧ (∃ v, e₂.outcome = .done v) ∧
      ∃ before after, .changed before after ∈ ys ∧ before.contains e₁.key = true ∧
        after.contains e₁.key = false := by
  obtain ⟨_, htransparent, hdropped⟩ :=
    restarts_transparent services_restartable start history_cancels
  refine ⟨services_restartable, history_cancels, ?_, ?_⟩
  · obtain ⟨h, hmem, hsuspended⟩ := List.any_eq_true.mp happenings_any.2.2
    obtain ⟨e, rfl, hkey, hms⟩ := exists_notReady hsuspended
    exact ⟨e, hmem, hkey, hms, htransparent e hmem (.inl ⟨aliasKey, hkey⟩)⟩
  · obtain ⟨xs, ys, zs, e₁, e₂, hsplit, same, hv₁, hv₂⟩ := happenings_eq
    exact ⟨xs, ys, zs, e₁, e₂, hsplit, same, hv₁, hv₂,
      hdropped xs ys zs e₁ e₂ hsplit same hv₁⟩

end BuildAnalysis.RestartSample
