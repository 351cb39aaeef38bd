import BuildAnalysis.Proofs.Analysis.Toolchains
import BuildAnalysis.Proofs.Collection.First

/-!
# Toolchains do not depend on flags

The toolchains of a target are resolved in the configuration without its flags. What else resolution
takes from the configuration are platform options, so consumers that differ only in flags request
the same keys, share what is cached for them and come to the same. Only the failure of a target
whose own constraints cannot be read names the configuration with its flags, and that target
requests nothing.
-/
namespace BuildAnalysis

open Engine (Store)

structure Configuration.SameButFlags (c c' : Configuration) : Prop where
  fragments : c.options.fragments = c'.options.fragments
  platform : c.options.platform = c'.options.platform

namespace ToolchainContexts

variable {t : Target} {rule : Rule} {c c' : Configuration} {platform : Option Label}
  {groups : ExecGroups} {key : String × ExecGroup → ToolchainKey}

/-- What the toolchains of groups come to with a registry, where each group is resolved for a key.
The first group that cannot be resolved decides. -/
inductive Settles (registry : Option ToolchainRegistry) (rule : Rule) (groups : ExecGroups)
    (key : String × ExecGroup → ToolchainKey) : Except Abort ToolchainContexts → Prop
  | optedOut (h : rule.usesToolchainResolution = false) :
      Settles registry rule groups key (.ok ⟨groups, none⟩)
  | resolved {r : ToolchainRegistry} {contexts : List (String × ToolchainContext)}
      (uses : rule.usesToolchainResolution = true) (known : registry = some r)
      (h : List.Forall₂ (fun g e => e.1 = g.1 ∧ r.resolve (key g) = .ok e.2) groups.groups
        contexts) : Settles registry rule groups key (.ok ⟨groups, some contexts⟩)
  | failed {r : ToolchainRegistry} {g : String × ExecGroup} {e : ToolchainError}
      (uses : rule.usesToolchainResolution = true) (known : registry = some r)
      (first : First (fun g => ∃ e, r.resolve (key g) = .error e) groups.groups g)
      (h : r.resolve (key g) = .error e) :
      Settles registry rule groups key (.error (.toolchains e.toFailure))

theorem forall₂_resolved_unique {r : ToolchainRegistry} {gs : List (String × ExecGroup)}
    {cs cs' : List (String × ToolchainContext)}
    (h : List.Forall₂ (fun g e => e.1 = g.1 ∧ r.resolve (key g) = .ok e.2) gs cs)
    (h' : List.Forall₂ (fun g e => e.1 = g.1 ∧ r.resolve (key g) = .ok e.2) gs cs') :
    cs = cs' := by
  induction h generalizing cs' with
  | nil =>
      cases h'
      rfl
  | cons hc _ ih =>
      cases h' with
      | cons hc' h' =>
        rw [ih h', Prod.ext (hc.1.trans hc'.1.symm) (Except.ok.inj (hc.2.symm.trans hc'.2))]

theorem Settles.unique {registry : Option ToolchainRegistry} {a b : Except Abort ToolchainContexts}
    (ha : Settles registry rule groups key a) (hb : Settles registry rule groups key b) :
    a = b := by
  cases ha with
  | optedOut h =>
      cases hb with
      | optedOut _ => rfl
      | resolved uses | failed uses => cases h.symm.trans uses
  | resolved uses known h =>
      cases hb with
      | optedOut h' => cases h'.symm.trans uses
      | resolved _ known' h' =>
          obtain rfl := Option.some.inj (known.symm.trans known')
          rw [forall₂_resolved_unique h h']
      | failed _ known' first h' =>
          obtain rfl := Option.some.inj (known.symm.trans known')
          obtain ⟨_, _, _, hok⟩ := Engine.exists_of_mem_left h first.mem
          cases hok.symm.trans h'
  | failed uses known first h =>
      cases hb with
      | optedOut h' => cases h'.symm.trans uses
      | resolved _ known' h' =>
          obtain rfl := Option.some.inj (known.symm.trans known')
          obtain ⟨_, _, _, hok⟩ := Engine.exists_of_mem_left h' first.mem
          cases hok.symm.trans h
      | failed _ known' first' h' =>
          obtain rfl := Option.some.inj (known.symm.trans known')
          obtain rfl := first.unique first'
          rw [Except.error.inj (h.symm.trans h')]

theorem collect_resolved {r : ToolchainRegistry} {gs : List (String × ExecGroup)}
    {rs : List (Except Failure ToolchainContext)}
    (h : List.Forall₂ (fun g v => v = (r.resolve (key g)).mapError ToolchainError.toFailure)
      gs rs) :
    (∃ cs, collect ((gs.map Prod.fst).zip rs) = .ok cs ∧
      List.Forall₂ (fun g e => e.1 = g.1 ∧ r.resolve (key g) = .ok e.2) gs cs) ∨
    ∃ g e, collect ((gs.map Prod.fst).zip rs) = .error (.toolchains e.toFailure) ∧
      First (fun g => ∃ e, r.resolve (key g) = .error e) gs g ∧ r.resolve (key g) = .error e := by
  induction h with
  | nil => exact .inl ⟨[], rfl, .nil⟩
  | @cons g v gs rs hv _ ih =>
      subst hv
      cases hg : r.resolve (key g) with
      | error e => exact .inr ⟨g, e, rfl, .here ⟨e, hg⟩, hg⟩
      | ok context =>
          have hskipped : ¬ ∃ e, r.resolve (key g) = .error e := by simp [hg]
          rcases ih with ⟨cs, hcs, hall⟩ | ⟨g', e, he, hfirst, hg'⟩
          · refine .inl ⟨(g.1, context) :: cs, ?_, .cons ⟨rfl, hg⟩ hall⟩
            simp only [List.map_cons, List.zip_cons_cons, collect, Except.mapError, hcs]
          · refine .inr ⟨g', e, ?_, .there hskipped hfirst, hg'⟩
            simp only [List.map_cons, List.zip_cons_cons, collect, Except.mapError, he]

/-- What is requested for groups, each key once. -/
def requested (rule : Rule) (groups : ExecGroups) (key : String × ExecGroup → ToolchainKey) :
    List AnalysisKey :=
  if rule.usesToolchainResolution then
    Listing.distinct (groups.groups.map fun g => .toolchains (key g))
  else []

/-- How resolving toolchains in a session ends and what it has requested. It waits only for keys
that have no value, and nothing that it finds is noted on the way. -/
inductive Course (s : AnalysisSession) (f : Findings) (rule : Rule) (groups : ExecGroups)
    (key : String × ExecGroup → ToolchainKey) :
    Except Engine.Suspension (Except Abort ToolchainContexts × Findings) → List AnalysisKey → Prop
  | cutOff (uses : rule.usesToolchainResolution = true) (h : s.isCancelled = true) :
      Course s f rule groups key (.error .cancelled) []
  | waits {g : String × ExecGroup} (uses : rule.usesToolchainResolution = true)
      (hg : g ∈ groups.groups) (h : s.store.contains (.toolchains (key g)) = false) :
      Course s f rule groups key (.error .notReady) (requested rule groups key)
  | ends {a : Except Abort ToolchainContexts}
      (h : Settles (s.store.value? .registry) rule groups key a) :
      Course s f rule groups key (.ok (a, f)) (requested rule groups key)

theorem ofExcept_bind_pure {α β : Type} (x : Except Abort α) (g : α → β) :
    (Evaluation.ofExcept x >>= fun a => pure (g a)) = Evaluation.ofExcept (x.map g) := by
  cases x <;> rfl

/-- Resolving toolchains is one request, unless the rule does without. -/
theorem runFrom_resolve (hgroups : groupsOf t rule c = .ok groups)
    (uses : rule.usesToolchainResolution = true) (f : Findings) :
    ((resolve t rule c platform).runFrom f).run =
      Engine.Task.request ((groups.groups.map (keyOf t c platform)).map AnalysisKey.toolchains)
        fun answer => .done (answer.map fun vs =>
          ((collect ((groups.groups.map Prod.fst).zip ((Engine.Values.toList (S := analysisSpace)
            AnalysisKey.toolchains (fun k r => (k, r)) _ vs).map Prod.snd))).map
              fun contexts => ⟨groups, some contexts⟩, f)) := by
  unfold resolve
  simp only [hgroups, uses, ofExcept_bind_pure]
  change Engine.Task.request _ _ = Engine.Task.request _ _
  congr 1
  funext answer
  cases answer with
  | error e => rfl
  | ok vs => rfl

/-- There is always a group, the default one. -/
theorem groups_ne_nil (hgroups : groupsOf t rule c = .ok groups) : groups.groups ≠ [] := by
  obtain ⟨_, _, rfl⟩ := groupsOf_eq_ok hgroups
  rw [ExecGroups.groups_ofDeclared]
  exact List.cons_ne_nil _ _

theorem settles_of_reads {services : Option Services} {st : Store analysisSpace}
    (hst : Consistent services st) (hgroups : groups.groups ≠ [])
    (uses : rule.usesToolchainResolution = true)
    {results : List (ToolchainKey × Except Failure ToolchainContext)}
    (h : st.Reads (S := analysisSpace) AnalysisKey.toolchains (fun k r => (k, r))
      (groups.groups.map key) results) :
    Settles (st.value? .registry) rule groups key
      ((collect ((groups.groups.map Prod.fst).zip (results.map Prod.snd))).map
        fun contexts => ⟨groups, some contexts⟩) := by
  have hreads := List.forall₂_map_left_iff.mp h
  obtain ⟨g, hg⟩ := List.exists_mem_of_ne_nil _ hgroups
  obtain ⟨_, _, v, hv, _⟩ := Engine.exists_of_mem_left hreads hg
  obtain ⟨r, hr, _⟩ := AnalysisKey.value?_toolchains hst hv
  have hresolved : List.Forall₂
      (fun g v => v = (r.resolve (key g)).mapError ToolchainError.toFailure)
      groups.groups (results.map Prod.snd) := by
    refine List.forall₂_map_right_iff.mpr (hreads.imp fun g e he => ?_)
    obtain ⟨v, hv, rfl⟩ := he
    obtain ⟨r', hr', hv⟩ := AnalysisKey.value?_toolchains hst hv
    obtain rfl := Option.some.inj (hr.symm.trans hr')
    exact hv
  rcases collect_resolved hresolved with ⟨cs, hcs, hall⟩ | ⟨g, e, he, hfirst, hg⟩
  · rw [hcs]
    exact .resolved uses hr hall
  · rw [he]
    exact .failed uses hr hfirst hg

/-- A run of the resolution of the toolchains of a target, in a session. -/
abbrev runIn (nest : Engine.Nest analysisSpace) (s : AnalysisSession) (f : Findings) (t : Target)
    (rule : Rule) (c : Configuration) (platform : Option Label) :
    Except Engine.Suspension (Except Abort ToolchainContexts × Findings) ×
      Engine.Running analysisSpace :=
  ((resolve t rule c platform).runFrom f).run.run nest { session := s }

theorem course_runIn {services : Option Services} {s : AnalysisSession}
    (hst : Consistent services s.store) (hgroups : groupsOf t rule c = .ok groups)
    (nest : Engine.Nest analysisSpace) (f : Findings) (platform : Option Label) :
    Course s f rule groups (keyOf t c platform) (runIn nest s f t rule c platform).1
      (runIn nest s f t rule c platform).2.deps := by
  by_cases uses : rule.usesToolchainResolution = true
  · have hrequested : requested rule groups (keyOf t c platform) =
        Listing.distinct ((groups.groups.map (keyOf t c platform)).map AnalysisKey.toolchains) := by
      rw [requested, if_pos uses, List.map_map]
      rfl
    by_cases live : s.isCancelled = false
    · have hrun : runIn nest s f t rule c platform = _ :=
        (congrArg (Engine.Task.run nest · { session := s })
          (runFrom_resolve hgroups uses f)).trans (Engine.Task.run_request live _ _)
      cases hvs : s.store.values?
          ((groups.groups.map (keyOf t c platform)).map AnalysisKey.toolchains) with
      | none =>
          obtain ⟨_, hk, hmissing⟩ := Engine.Store.exists_of_values?_eq_none hvs
          obtain ⟨_, hkey, rfl⟩ := List.mem_map.mp hk
          obtain ⟨g, hg, rfl⟩ := List.mem_map.mp hkey
          have hcourse : Course s f rule groups (keyOf t c platform) _ _ :=
            .waits uses hg hmissing
          rw [hrequested] at hcourse
          rw [hrun, hvs, Engine.Task.run, Engine.Running.watched_deps]
          exact hcourse
      | some vs =>
          have hreads : s.store.Reads (S := analysisSpace) AnalysisKey.toolchains
              (fun k r => (k, r)) (groups.groups.map (keyOf t c platform)) _ :=
            Engine.Store.reads_toList hvs
          have hcourse : Course s f rule groups (keyOf t c platform) _ _ :=
            .ends (settles_of_reads hst (groups_ne_nil hgroups) uses hreads)
          rw [hrequested] at hcourse
          rw [hrun, hvs, Engine.Task.run, Engine.Running.watched_deps]
          exact hcourse
    · have hcancelled : s.isCancelled = true := by simpa using live
      have hrun : runIn nest s f t rule c platform = _ :=
        (congrArg (Engine.Task.run nest · { session := s })
          (runFrom_resolve hgroups uses f)).trans (Engine.Task.run_request_cancelled hcancelled _ _)
      rw [hrun]
      exact .cutOff uses hcancelled
  · have hopted : rule.usesToolchainResolution = false := by simpa using uses
    have hrun : runIn nest s f t rule c platform =
        (.ok (.ok ⟨groups, none⟩, f), { session := s }) := by
      unfold runIn resolve
      rw [hgroups, hopted]
      rfl
    have hnone : requested rule groups (keyOf t c platform) = [] := if_neg uses
    rw [hrun]
    exact hnone ▸ .ends (.optedOut hopted)

/-- How a target fails whose own constraints cannot be read. -/
def refusal (t : Target) (c : Configuration) (e : TargetError) : Abort :=
  .creation (.ofTarget t.label (some c.key) e.toFailure.bestTag e.toFailure.message)

theorem runIn_refused {e : TargetError} (h : t.constraints = .error e)
    (nest : Engine.Nest analysisSpace) (s : AnalysisSession) (f : Findings) :
    runIn nest s f t rule c platform = (.ok (.error (refusal t c e), f), { session := s }) := by
  unfold runIn resolve groupsOf
  rw [h]
  rfl

theorem constraints_eq_error {e : TargetError} (h : t.constraints = .error e) :
    e = .notLabelList t.label Rule.constraintsAttr := by
  unfold Target.constraints at h
  split at h
  next => cases h
  next =>
    split at h
    next =>
      split at h
      next => cases h
      next => exact (Except.error.inj h).symm
    next => exact (Except.error.inj h).symm

/-- The groups of a target and the keys that they are resolved for do not depend on flags. -/
theorem groupsOf_eq (same : c.SameButFlags c') : groupsOf t rule c = groupsOf t rule c' := by
  unfold groupsOf Configuration.executionConstraintsFor
  rw [same.platform]

theorem keyOf_eq (same : c.SameButFlags c') : keyOf t c platform = keyOf t c' platform := by
  funext g
  unfold keyOf Configuration.tracesToolchainsOf BuildOptions.clearFlags
  rw [same.fragments, same.platform]

theorem Course.settles {s : AnalysisSession} {f f' : Findings} {a : Except Abort ToolchainContexts}
    {ks : List AnalysisKey} (h : Course s f rule groups key (.ok (a, f')) ks) :
    Settles (s.store.value? .registry) rule groups key a := by
  cases h with
  | ends h => exact h

theorem Course.not_waits {s : AnalysisSession} {f : Findings} {ks : List AnalysisKey}
    (h : ∀ k ∈ requested rule groups key, s.store.contains k = true) :
    ¬ Course s f rule groups key (.error .notReady) ks := by
  rintro (_ | ⟨uses, hg, hmissing⟩)
  rw [requested, if_pos uses] at h
  have hcached := h _ (Listing.mem_distinct.mpr (List.mem_map_of_mem hg))
  rw [hmissing] at hcached
  cases hcached

/-- Two consumers share the resolution of their toolchains: they request the same keys for the same
groups, come to the same, and the second does not wait where the keys of the first are cached. -/
structure Shared (t : Target) (rule : Rule) (platform : Option Label) (c c' : Configuration)
    (s s' : AnalysisSession) (f f' : Findings) (groups : ExecGroups)
    (run run' : Except Engine.Suspension (Except Abort ToolchainContexts × Findings) ×
      Engine.Running analysisSpace) : Prop where
  groups_left : groupsOf t rule c = .ok groups
  groups_right : groupsOf t rule c' = .ok groups
  keys : keyOf t c platform = keyOf t c' platform
  left : Course s f rule groups (keyOf t c platform) run.1 run.2.deps
  right : Course s' f' rule groups (keyOf t c' platform) run'.1 run'.2.deps
  same : ∀ a a' found found', run.1 = .ok (a, found) → run'.1 = .ok (a', found') → a = a'
  cached : (∀ k ∈ requested rule groups (keyOf t c platform), s'.store.contains k = true) →
    run'.1 ≠ .error .notReady

/-- Let two engines begin with nothing and go through any histories that leave them with the same
registry, and let the toolchains of a target be resolved in both, in two configurations that differ
only in their flags and for the same platform, if one is forced. Either the constraints of the
target itself are no list of labels, and both fail before they request anything. Or both request the
same keys for the same execution groups. Each comes to an end unless it is cancelled or one of the
keys is not cached, and then both come to the same contexts or to the same failure, as the registry
has it for those keys. -/
theorem resolution_ignores_flags {services services' : Option Services}
    {start start' : AnalysisSession} (empty : start.store = {}) (empty' : start'.store = {})
    {history history' : List (Engine.Call analysisSpace)}
    (proper : ∀ call ∈ history, call.Proper (AnalysisKey.computation services))
    (proper' : ∀ call ∈ history', call.Proper (AnalysisKey.computation services'))
    {s s' : AnalysisSession} (hs : s.store = (start.after history).store)
    (hs' : s'.store = (start'.after history').store)
    (registry : s.store.value? .registry = s'.store.value? .registry)
    (same : c.SameButFlags c') (nest nest' : Engine.Nest analysisSpace) (f f' : Findings)
    (t : Target) (rule : Rule) (platform : Option Label) :
    (∃ e, t.constraints = .error e ∧ e = .notLabelList t.label Rule.constraintsAttr ∧
      runIn nest s f t rule c platform = (.ok (.error (refusal t c e), f), { session := s }) ∧
      runIn nest' s' f' t rule c' platform =
        (.ok (.error (refusal t c' e), f'), { session := s' })) ∨
    ∃ groups, Shared t rule platform c c' s s' f f' groups (runIn nest s f t rule c platform)
      (runIn nest' s' f' t rule c' platform) := by
  cases hown : t.constraints with
  | error e =>
      exact .inl ⟨e, rfl, constraints_eq_error hown, runIn_refused hown nest s f,
        runIn_refused hown nest' s' f'⟩
  | ok own =>
      have hgroups : ∃ groups, groupsOf t rule c = .ok groups := by
        unfold groupsOf
        rw [hown]
        exact ⟨_, rfl⟩
      obtain ⟨groups, hgroups⟩ := hgroups
      have hgroups' := (groupsOf_eq same).symm.trans hgroups
      have hkeys : keyOf t c platform = keyOf t c' platform := keyOf_eq same
      have hleft := course_runIn (consistent_after empty proper hs) hgroups nest f platform
      have hright := course_runIn (consistent_after empty' proper' hs') hgroups' nest' f' platform
      refine .inr ⟨groups, hgroups, hgroups', hkeys, hleft, hright, fun a a' _ _ ha ha' => ?_,
        fun hcached hwaits => ?_⟩
      · rw [ha] at hleft
        rw [ha', ← hkeys] at hright
        exact hleft.settles.unique (registry ▸ hright.settles)
      · rw [hwaits, ← hkeys] at hright
        exact hright.not_waits hcached

end ToolchainContexts
end BuildAnalysis

/-! The same target in a configuration with a flag, in the session that has resolved its toolchains
without the flag. -/

namespace BuildAnalysis.ToolchainsSample

open BuiltinRules.AliasSample (start)
open FragmentsSample (compute goLabel)

def flagged : Configuration := .ofOptions (host.options.setFlag goLabel "on")

theorem flagged_same : host.SameButFlags flagged := ⟨rfl, rfl⟩

abbrev resolving (c : Configuration) :
    Except Engine.Suspension (Except Abort ToolchainContexts × Findings) ×
      Engine.Running analysisSpace :=
  ToolchainContexts.runIn (Engine.nestWithin compute {}) session {} program rule c (some riscvLabel)

/-- The flag makes the configuration another one, and the target has the same toolchains in it. -/
theorem resolution_ignores_flags_program : host.SameButFlags flagged ∧ host ≠ flagged ∧
    ∃ groups contexts found found',
      ToolchainContexts.Shared program rule (some riscvLabel) host flagged session session {} {}
        groups (resolving host) (resolving flagged) ∧
      (resolving host).1 = .ok (.ok ⟨groups, some contexts⟩, found) ∧
      (resolving flagged).1 = .ok (.ok ⟨groups, some contexts⟩, found') := by
  refine ⟨flagged_same, by decide +kernel, ?_⟩
  obtain ⟨groups, contexts, found, hhost, _⟩ := resolved_eq_ok
  have hended : (Staged.ended? (resolving flagged).1).isSome = true := by decide +kernel
  obtain ⟨⟨resolved', found'⟩, hended⟩ := Option.isSome_iff_exists.mp hended
  have hflagged := Staged.ended?_eq_some hended
  have hstore : session.store = (Engine.Session.after start history).store := rfl
  rcases ToolchainContexts.resolution_ignores_flags rfl rfl history_proper history_proper hstore
      hstore rfl flagged_same (Engine.nestWithin compute {}) (Engine.nestWithin compute {}) {} {}
      program rule (some riscvLabel) with
    ⟨e, he, _⟩ | ⟨groups', hshared⟩
  · have hconstraints : program.constraints = .ok [vectorLabel] := by decide +kernel
    cases hconstraints.symm.trans he
  · have hsame := hshared.same _ _ _ _ hhost hflagged
    obtain rfl := Except.ok.inj hsame
    have hleft := hshared.left
    rw [show (resolving host).1 = _ from hhost] at hleft
    cases hleft.settles
    exact ⟨groups, contexts, found, found', hshared, hhost, hflagged⟩

end BuildAnalysis.ToolchainsSample
