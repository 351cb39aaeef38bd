import BuildAnalysis.Analysis.Requests
import BuildAnalysis.Proofs.Analysis.Blame
import BuildAnalysis.Proofs.Analysis.Trimming
import BuildAnalysis.Proofs.Engine.Marks
import BuildAnalysis.Proofs.Engine.Scratch

/-!
# Which failures have been shown

A failure that counts as reported was either shown where it arose or handed up from a key below.
Going down from failure to failure ends at a key that delivered an error, unless it ends at one of
two kinds of failures that are shown by nobody: those that a target leaves unreported because its
package is broken, and those without a message.
-/
namespace BuildAnalysis

open Engine (Store)
open Relation (ReflTransGen TransGen)

variable {services : Services} {st : Store analysisSpace}

def Fetches (st : Store analysisSpace) (k l : AnalysisKey) : Prop :=
  ∃ e ∈ st.entries, e.key = k ∧ l ∈ e.deps

def FetchesFailed (st : Store analysisSpace) (k l : AnalysisKey) : Prop :=
  Fetches st k l ∧ ∃ e, FailedAt st l e

/-- The evaluation of a key has delivered an error, and the error has left the engine. -/
def Shown (services : Services) (s : AnalysisSession) (k : AnalysisKey) : Prop :=
  ∃ v ks es, k.Evaluates (some services) s.store v ks es ∧
    ∃ ev, ev.isError = true ∧ AnalysisEffect.deliver ev ∈ es ∧ ev ∈ s.world.events

def TargetFailedAt (st : Store analysisSpace) (k : AnalysisKey) (t : TargetFailure) : Prop :=
  ∃ e, FailedAt st k e ∧ e.targetFailure? = some t

/-- A target in a broken package has failed and left it to others to report that. -/
def LeftUnreported (st : Store analysisSpace) : AnalysisKey → Prop
  | .target k => (∃ t, TargetFailedAt st (.target k) t ∧ t.reported = false) ∧ BrokenAt st k.label
  | _ => False

/-- A key has failed without a message. -/
def SaysNothing (st : Store analysisSpace) (k : AnalysisKey) : Prop :=
  ∃ t, TargetFailedAt st k t ∧ t.message.isEmpty = true

/-- The failure of a target that is the value of a key. -/
def targetFailure? (st : Store analysisSpace) (k : AnalysisKey) : Option TargetFailure :=
  ((st.value? k).bind k.failure?).bind Failure.targetFailure?

theorem targetFailedAt_of_eq {k : AnalysisKey} {t : TargetFailure}
    (h : targetFailure? st k = some t) : TargetFailedAt st k t := by
  obtain ⟨e, he, ht⟩ := Option.bind_eq_some_iff.mp h
  obtain ⟨v, hv, he⟩ := Option.bind_eq_some_iff.mp he
  exact ⟨e, ⟨v, hv, he⟩, ht⟩

theorem TargetFailedAt.unique {k : AnalysisKey} {t t' : TargetFailure}
    (h : TargetFailedAt st k t) (h' : TargetFailedAt st k t') : t = t' := by
  obtain ⟨e, ⟨v, hv, he⟩, ht⟩ := h
  obtain ⟨e', ⟨v', hv', he'⟩, ht'⟩ := h'
  obtain rfl := Option.some.inj (hv.symm.trans hv')
  obtain rfl := Option.some.inj (he.symm.trans he')
  exact Option.some.inj (ht.symm.trans ht')

theorem LeftUnreported.reported {k : AnalysisKey} (h : LeftUnreported st k) :
    ∃ t, TargetFailedAt st k t ∧ t.reported = false := by
  cases k with
  | target k => exact h.1
  | _ => exact h.elim

theorem Findings.showsError_report (f : Findings) (label : Label) (message : String) :
    (f.report (.error label message)).ShowsError :=
  ⟨_, List.mem_append_right _ (List.mem_singleton_self _), rfl⟩

/-- What reporting a failure can come to: an error is shown, or the failure has no message, or it is
left unreported, or it was handed up from a key that was requested. -/
def ReportEnds (st : Store analysisSpace) (broken : Prop) (known : List AnalysisKey)
    (r : Findings × TargetFailure) : Prop :=
  r.1.ShowsError ∨ r.2.message.isEmpty = true ∨ (r.2.reported = false ∧ broken) ∨
    ∃ k ∈ known, ∃ e, FailedAt st k e

section Reports

variable {broken : Prop} {known : List AnalysisKey} {f : Findings} {a : Abort}

theorem ReportEnds.creation (label : Label) (e : TargetFailure) :
    ReportEnds st broken known
      (if e.message.isEmpty then f else f.report (.error label e.message), e.markReported) := by
  cases hmessage : e.message.isEmpty with
  | true => exact .inr (.inl hmessage)
  | false =>
      refine .inl ?_
      rw [if_neg Bool.false_ne_true]
      exact f.showsError_report _ _

theorem ReportEnds.collected {e : TargetFailure}
    (h : (Abort.collected e).Blamed st broken known f) : ReportEnds st broken known (f, e) := by
  obtain ⟨hreported, hshows | hbroken⟩ := h
  · exact .inl hshows
  · exact .inr (.inr (.inl ⟨hreported, hbroken⟩))

theorem TargetKey.reportFailure_ends (k : TargetKey) (h : a.Blamed st broken known f) :
    ReportEnds st broken known (k.reportFailure f a) := by
  cases a with
  | dependency e reported =>
      cases reported with
      | true => exact .inr (.inr (.inr (h rfl)))
      | false =>
          -- An error is shown before the toolchains are looked at, and possibly another after it.
          refine .inl ?_
          simp only [reportFailure, Bool.false_eq_true, ite_false]
          split
          · exact Findings.showsError_report _ _ _
          · exact f.showsError_report _ _
  | creation e => exact .creation k.label e
  | aspect e => exact .inr (.inr (.inr h))
  | toolchains e => exact .inl (f.showsError_report _ _)
  | collected e => exact .collected h

theorem AspectKey.reportFailure_ends (k : AspectKey) (h : a.Blamed st broken known f) :
    ReportEnds st broken known (k.reportFailure f a) := by
  cases a with
  | dependency e reported =>
      cases reported with
      | true => exact .inr (.inr (.inr (h rfl)))
      | false => exact .inl (f.showsError_report _ _)
  | creation e => exact .creation k.base.label e
  | aspect e => exact .inr (.inr (.inr h))
  | toolchains e => exact .inl (f.showsError_report _ _)
  | collected e => exact .collected h

end Reports

/-- Delivered events stay in the world. -/
def EventDelivered : AnalysisEffect → AnalysisWorld → Prop
  | .deliver ev, w => ev ∈ w.events
  | _, _ => True

theorem eventDelivered_persistent :
    Engine.KeySpace.Persistent analysisSpace EventDelivered where
  made e w := by
    cases e with
    | deliver ev => exact List.mem_append_right _ (List.mem_singleton_self ev)
    | _ => trivial
  kept e f w h := by
    cases e with
    | deliver ev =>
        cases f with
        | deliver ev' => exact List.mem_append_left _ h
        | _ => exact h
    | _ => trivial

theorem mem_events_of_evaluates {s : AnalysisSession}
    (hmarked : Engine.Session.Marked (AnalysisKey.computation (some services)) EventDelivered s)
    {k : AnalysisKey} (hk : analysisSpace.isInjected k = false) {v w : k.Value}
    (hw : s.store.value? k = some w) {ks : List AnalysisKey} {es : List AnalysisEffect}
    (h : k.Evaluates (some services) s.store v ks es) {ev : Event}
    (hev : AnalysisEffect.deliver ev ∈ es) : ev ∈ s.world.events := by
  obtain ⟨deps, hmem⟩ := Store.exists_mem_of_value? hw
  obtain ⟨q, hq, hmarks⟩ := hmarked _ hmem hk
  obtain ⟨p, hp, _, _, rfl⟩ := h
  obtain rfl : q = p := Option.some.inj (hq.symm.trans hp)
  exact hmarks _ hev

/-- The value of a key whose evaluation failed and was reported, by what the report came to. -/
theorem failed_ends {s : AnalysisSession}
    (hmarked : Engine.Session.Marked (AnalysisKey.computation (some services)) EventDelivered s)
    {k : AnalysisKey} (hk : analysisSpace.isInjected k = false) {v : k.Value}
    {deps ks : List AnalysisKey} {es : List AnalysisEffect}
    (hmem : (⟨k, v, deps⟩ : Engine.Entry analysisSpace) ∈ s.store.entries)
    (hv : s.store.value? k = some v) (hdeps : ∀ l, l ∈ deps ↔ l ∈ ks)
    (heval : k.Evaluates (some services) s.store v ks es) {broken : Prop}
    {r : Findings × TargetFailure} (hends : ReportEnds s.store broken ks r)
    (hevents : ∀ ev ∈ r.1.events, AnalysisEffect.deliver ev ∈ es)
    (hfailed : TargetFailedAt s.store k r.2) :
    Shown services s k ∨ (r.2.reported = false ∧ broken) ∨ SaysNothing s.store k ∨
      ∃ l, FetchesFailed s.store k l := by
  rcases hends with ⟨ev, hev, herror⟩ | hempty | hleft | ⟨l, hl, e, hfailure⟩
  · exact .inl ⟨v, ks, es, heval, ev, herror, hevents ev hev,
      mem_events_of_evaluates hmarked hk hv heval (hevents ev hev)⟩
  · exact .inr (.inr (.inl ⟨_, hfailed, hempty⟩))
  · exact .inr (.inl hleft)
  · exact .inr (.inr (.inr ⟨l, ⟨_, hmem, rfl, (hdeps l).mpr hl⟩, e, hfailure⟩))

/-- A key that has failed has shown that, or was left unreported, or says nothing, or has requested
a key that has failed. -/
theorem FailedAt.ends {s : AnalysisSession} (hst : Consistent (some services) s.store)
    (hmarked : Engine.Session.Marked (AnalysisKey.computation (some services)) EventDelivered s)
    {k : AnalysisKey} {e : Failure} (h : FailedAt s.store k e) :
    Shown services s k ∨ LeftUnreported s.store k ∨ SaysNothing s.store k ∨
      ∃ l, FetchesFailed s.store k l := by
  obtain ⟨v, hv, hfailure⟩ := h
  cases k with
  | target k =>
      obtain ⟨deps, ks, es, hmem, hdeps, heval⟩ := AnalysisKey.evaluates_of_value? hst rfl hv
      rcases AnalysisKey.evaluates_target heval with
        ⟨hnone, _⟩ | ⟨s', result, found, hs', hyields, ⟨_, _, rfl, _⟩ | ⟨a, rfl, rfl, hevents⟩⟩
      · cases hnone
      · cases hfailure
      obtain rfl := Option.some.inj hs'
      have hblamed := (k.evaluate_blames services).error (.of_isEmpty rfl) hyields
      have hfailed : TargetFailedAt s.store (.target k) (k.reportFailure found a).2 :=
        ⟨_, ⟨_, hv, rfl⟩, rfl⟩
      exact (failed_ends hmarked rfl hmem hv hdeps heval (k.reportFailure_ends hblamed) hevents
        hfailed).imp_right (Or.imp_left fun hleft => ⟨⟨_, hfailed, hleft.1⟩, hleft.2⟩)
  | aspect k =>
      obtain ⟨deps, ks, es, hmem, hdeps, heval⟩ := AnalysisKey.evaluates_of_value? hst rfl hv
      rcases AnalysisKey.evaluates_aspect heval with
        ⟨hnone, _⟩ | ⟨s', result, found, hs', hyields, ⟨_, _, rfl, _⟩ | ⟨a, rfl, rfl, hevents⟩⟩
      · cases hnone
      · cases hfailure
      obtain rfl := Option.some.inj hs'
      have hblamed : a.Blamed s.store False ks found :=
        (k.evaluate_blames services).error (.of_isEmpty rfl) hyields
      exact (failed_ends hmarked rfl hmem hv hdeps heval (k.reportFailure_ends hblamed) hevents
        ⟨_, ⟨_, hv, rfl⟩, rfl⟩).imp_right (Or.imp_left And.right)
  | _ => cases hfailure

/-- Going down from failure to failure ends where an error was shown, or at a failure that nobody
shows. -/
theorem FailedAt.origin {s : AnalysisSession} (hst : Consistent (some services) s.store)
    (hmarked : Engine.Session.Marked (AnalysisKey.computation (some services)) EventDelivered s)
    {k : AnalysisKey} {e : Failure} (h : FailedAt s.store k e) :
    ∃ l, ReflTransGen (FetchesFailed s.store) k l ∧
      (Shown services s l ∨ LeftUnreported s.store l ∨ SaysNothing s.store l) := by
  -- What a key was computed from comes earlier in the store, so the way down ends.
  induction hn : s.store.rank k using Nat.strongRecOn generalizing k e with
  | ind n ih =>
    rcases h.ends hst hmarked with hshown | hleft | hnothing | ⟨l, hfetches, e', hfailed⟩
    · exact ⟨k, .refl, .inl hshown⟩
    · exact ⟨k, .refl, .inr (.inl hleft)⟩
    · exact ⟨k, .refl, .inr (.inr hnothing)⟩
    · obtain ⟨entry, hmem, hkey, hl⟩ := hfetches
      have hlt : s.store.rank l < n := by
        rw [← hn, ← hkey]
        exact hst.rank_lt hmem hl
      obtain ⟨m, hm, hends⟩ := ih _ hlt hfailed rfl
      exact ⟨m, .head ⟨⟨entry, hmem, hkey, hl⟩, e', hfailed⟩ hm, hends⟩

/-- Let an engine begin with nothing and go through any history. If a cached failure of a target or
of an aspect counts as reported, then its evaluation or that of a key below it has delivered an
error, unless the failure was handed up from a target that left its failure unreported because its
package is broken, or was handed up or made where a failure has no message. -/
theorem reported_failure_shown {start : AnalysisSession} (empty : start.store = {})
    {history : List (Engine.Call analysisSpace)}
    (proper : ∀ call ∈ history, call.Proper (AnalysisKey.computation (some services)))
    {s : AnalysisSession} (hs : s = start.after history) {k : AnalysisKey} {t : TargetFailure}
    (hfailed : TargetFailedAt s.store k t) (reported : t.reported = true) :
    (∃ l, ReflTransGen (Fetches s.store) k l ∧ Shown services s l) ∨
    (∃ l, TransGen (FetchesFailed s.store) k l ∧ LeftUnreported s.store l) ∨
    ∃ l, ReflTransGen (FetchesFailed s.store) k l ∧ SaysNothing s.store l := by
  subst hs
  have hst := consistent_after empty proper rfl
  have hmarked := Engine.Session.after_marked eventDelivered_persistent empty proper
  have ⟨e, hfailure, ht⟩ := hfailed
  obtain ⟨l, hl, hshown | hleft | hnothing⟩ := hfailure.origin hst hmarked
  · exact .inl ⟨l, ReflTransGen.mono (fun _ _ h => h.1) _ _ hl, hshown⟩
  · refine .inr (.inl ⟨l, ?_, hleft⟩)
    rcases Relation.reflTransGen_iff_eq_or_transGen.mp hl with rfl | hl
    · obtain ⟨t', ht', hunreported⟩ := hleft.reported
      obtain rfl := ht'.unique hfailed
      rw [reported] at hunreported
      cases hunreported
    · exact hl
  · exact .inr (.inr ⟨l, hl, hnothing⟩)

end BuildAnalysis

/-! A target that depends on one in a broken package. -/

namespace BuildAnalysis.ReportingSample

open BuiltinRules.AliasSample TrimmingSample
open Relation (ReflTransGen TransGen)

def base : Target :=
  { label := libLabel, kind := .rule (rule "library" [] (by decide)), values := [] }

def brokenPackage : Package where
  label := libLabel.package
  targets := [base]
  owned := by decide
  distinct := by decide
  errorMessage := some "syntax error"

def topPackage : Package where
  label := binLabel.package
  targets := [top]
  owned := by decide
  distinct := by decide

def plain : Configuration := .ofOptions {}

def topKey : AnalysisKey := .target ⟨binLabel, some plain.key, none⟩

def history : List (Engine.Call analysisSpace) :=
  [loading [brokenPackage, topPackage], .compute compute {} true topKey]

def session : AnalysisSession := Engine.Session.after start history

theorem history_proper : ∀ call ∈ history, call.Proper compute :=
  List.forall_mem_cons.mpr ⟨loading_proper _, List.forall_mem_singleton.mpr compute_interrupts⟩

theorem failed_top : ∃ t, TargetFailedAt session.store topKey t ∧ t.reported = true := by
  have hfailure : (targetFailure? session.store topKey).map TargetFailure.reported =
      some true := by
    decide +kernel
  obtain ⟨t, ht, hreported⟩ := Option.map_eq_some_iff.mp hfailure
  exact ⟨t, targetFailedAt_of_eq ht, hreported⟩

theorem reported_failure_shown_top : ∃ t, TargetFailedAt session.store topKey t ∧
    t.reported = true ∧ ((∃ l, ReflTransGen (Fetches session.store) topKey l ∧ Shown services session l) ∨
      (∃ l, TransGen (FetchesFailed session.store) topKey l ∧ LeftUnreported session.store l) ∨
      ∃ l, ReflTransGen (FetchesFailed session.store) topKey l ∧ SaysNothing session.store l) := by
  obtain ⟨t, ht, hreported⟩ := failed_top
  have hsession : session = Engine.Session.after start history := rfl
  exact ⟨t, ht, hreported, reported_failure_shown rfl history_proper hsession ht hreported⟩

/-- A failure that counts as reported, while no event has left the engine. -/
theorem reported_without_event : ∃ t, TargetFailedAt session.store topKey t ∧ t.reported = true ∧
    session.world.events = [] ∧
    ¬ ∃ l, ReflTransGen (Fetches session.store) topKey l ∧ Shown services session l := by
  obtain ⟨t, ht, hreported⟩ := failed_top
  have hevents : session.world.events = [] := by decide +kernel
  refine ⟨t, ht, hreported, hevents, ?_⟩
  rintro ⟨l, _, _, _, _, _, ev, _, _, hev⟩
  rw [hevents] at hev
  cases hev

end BuildAnalysis.ReportingSample
