import BuildAnalysis.Proofs.Analysis.Fragments
import BuildAnalysis.Proofs.Analysis.Untroubled
import BuildAnalysis.Proofs.Toolchain.Outcome

/-!
# The toolchains of execution groups

A target has a context for each of its execution groups: for the default group, which asks for what
the rule, the target and the configuration ask for, and for each other group that the rule declares,
which may ask for that as well. The platform of a context is registered and has what its group asks
for. A platform that is forced is that of the default group and of no concern to the others.
-/
namespace BuildAnalysis

open Engine (Store)

namespace ExecGroup

variable {g default : ExecGroup} {l : Label}

theorem mem_toolchainTypes_resolve : l ∈ (g.resolve default).toolchainTypes ↔
    l ∈ g.toolchainTypes ∨ g.inherits = true ∧ l ∈ default.toolchainTypes := by
  unfold resolve
  split
  next h => simp [h]
  next h => simp [h]

theorem mem_constraints_resolve : l ∈ (g.resolve default).constraints ↔
    l ∈ g.constraints ∨ g.inherits = true ∧ l ∈ default.constraints := by
  unfold resolve
  split
  next h => simp [h]
  next h => simp [h]

end ExecGroup

namespace ExecGroups

variable {default : ExecGroup} {declared : List (String × ExecGroup)}

/-- The groups are the default one and then, in the order in which they were declared, all others
with what they inherit. -/
theorem groups_ofDeclared (default : ExecGroup) (declared : List (String × ExecGroup)) :
    (ofDeclared default declared).groups = (ExecGroup.defaultName, default) ::
      ((Listing.ofEntries declared).filter fun e => e.1 != ExecGroup.defaultName).map
        fun e => (e.1, e.2.resolve default) := by
  unfold ofDeclared
  dsimp only
  rw [Listing.ofEntries_cons, Listing.ofEntries_map_snd fun g => ExecGroup.resolve g default,
    Listing.ofEntries_filter fun name => name != ExecGroup.defaultName]
  intro e he
  obtain ⟨e', he', rfl⟩ := List.mem_map.mp he
  simpa using (List.mem_filter.mp he').2

/-- What the group of a name asks for of some kind: the default group what is given for it, another
group what it declares and, if it inherits, what the default group asks for. -/
def Asks (declared : List (String × ExecGroup)) (kind : ExecGroup → SortedSet Label)
    (own : Label → Prop) (name : String) (l : Label) : Prop :=
  if name = ExecGroup.defaultName then own l
  else ∃ g, Listing.find? name (Listing.ofEntries declared) = some g ∧
    (l ∈ kind g ∨ g.inherits = true ∧ own l)

theorem asks_iff {kind : ExecGroup → SortedSet Label}
    (hkind : ∀ g l, l ∈ kind (ExecGroup.resolve g default) ↔
      l ∈ kind g ∨ g.inherits = true ∧ l ∈ kind default)
    {own : Label → Prop} (hown : ∀ l, l ∈ kind default ↔ own l) {e : String × ExecGroup}
    (he : e ∈ (ofDeclared default declared).groups) (l : Label) :
    Asks declared kind own e.1 l ↔ l ∈ kind e.2 := by
  rw [groups_ofDeclared] at he
  unfold Asks
  rcases List.mem_cons.mp he with rfl | he
  · rw [if_pos rfl]
    exact (hown l).symm
  · obtain ⟨⟨name, g⟩, hg, rfl⟩ := List.mem_map.mp he
    obtain ⟨hg, hname⟩ := List.mem_filter.mp hg
    have hfind := (Listing.find?_eq_some_iff (Listing.nodup_ofEntries declared)).mpr hg
    rw [if_neg (by simpa using hname)]
    simp only [hfind, Option.some.injEq, exists_eq_left', hkind, hown]

end ExecGroups

/-- The configuration adds a constraint for the execution of a target. -/
def Configuration.Adds (c : Configuration) (label l : Label) : Prop :=
  ∃ e ∈ c.options.platform.extraConstraints, e.pattern.selects label = true ∧ l ∈ e.constraints

theorem Configuration.mem_executionConstraintsFor {c : Configuration} {label l : Label} :
    l ∈ c.executionConstraintsFor label ↔ c.Adds label l := by
  have hfold : ∀ (es : List ExecutionConstraints) (out : List Label),
      l ∈ es.foldl (fun out e => Listing.addAll out e.constraints) out ↔
        l ∈ out ∨ ∃ e ∈ es, l ∈ e.constraints := by
    intro es
    induction es with
    | nil => simp
    | cons e es ih => simp [ih, or_assoc]
  simp [executionConstraintsFor, hfold, Adds, and_assoc]

/-- The constraints of the target platform of a configuration, none if it has no platform. -/
def ToolchainRegistry.HasTarget (r : ToolchainRegistry) (c : Configuration)
    (target : SortedSet Label) : Prop :=
  match c.options.platform.targetPlatform with
  | none => target = ∅
  | some p => r.targetPlatforms.get? p = some target

theorem AnalysisKey.value?_toolchains {services : Option Services} {st : Store analysisSpace}
    (hst : Consistent services st) {k : ToolchainKey} {v : Except Failure ToolchainContext}
    (hv : st.value? (.toolchains k) = some v) : ∃ r : ToolchainRegistry,
      st.value? .registry = some r ∧ v = (r.resolve k).mapError ToolchainError.toFailure := by
  obtain ⟨_, _, _, _, _, h⟩ := evaluates_of_value? hst rfl hv
  have hyields : Engine.Demand.Yields st (computeToolchains k) v _ _ := h.yields
  obtain ⟨r, _, _, _, _, hregistry, hrest, _⟩ := hyields.of_bind
  obtain ⟨_, _, _, _, _, _, hresolved, _⟩ := hrest.of_bind
  exact ⟨r, (Engine.Demand.Yields.of_value hregistry).2, hresolved.of_pure.1⟩

theorem AnalysisKey.value?_toolchains_ok {services : Option Services} {st : Store analysisSpace}
    (hst : Consistent services st) {k : ToolchainKey} {c : ToolchainContext}
    (hc : st.value? (.toolchains k) = some (.ok c)) : ∃ r : ToolchainRegistry,
      st.value? .registry = some r ∧ r.resolve k = .ok c := by
  obtain ⟨r, hr, hresolved⟩ := value?_toolchains hst hc
  refine ⟨r, hr, ?_⟩
  cases hresolve : r.resolve k with
  | error e =>
      rw [hresolve] at hresolved
      cases hresolved
  | ok c' =>
      rw [hresolve] at hresolved
      exact congrArg _ (Except.ok.inj hresolved).symm

namespace ToolchainContexts

variable {r : ToolchainRegistry} {t : Target} {rule : Rule} {c : Configuration}
  {platform : Option Label} {target : SortedSet Label} {g : String × ExecGroup}

/-- The types that the group of a name asks for. -/
abbrev AsksType (rule : Rule) : String → Label → Prop :=
  ExecGroups.Asks rule.execGroups ExecGroup.toolchainTypes (· ∈ rule.toolchainTypes)

/-- The constraints that the group of a name asks for: the default group has those of the rule,
those of the target itself and those that the configuration adds for the target. -/
abbrev AsksConstraint (t : Target) (rule : Rule) (c : Configuration) (own : List Label) :
    String → Label → Prop :=
  ExecGroups.Asks rule.execGroups ExecGroup.constraints
    fun l => l ∈ rule.constraints ∨ l ∈ own ∨ c.Adds t.label l

structure ProvidedBy (r : ToolchainRegistry) (t : Target) (rule : Rule) (c : Configuration)
    (platform : Option Label) (own : List Label) (target : SortedSet Label) (groups : ExecGroups)
    (contexts : List (String × ToolchainContext)) : Prop where
  covers : contexts.map Prod.fst = groups.groups.map Prod.fst
  distinct : (contexts.map Prod.fst).Nodup
  names : contexts.map Prod.fst = ExecGroup.defaultName ::
    ((Listing.ofEntries rule.execGroups).map Prod.fst).filter (· != ExecGroup.defaultName)
  placed : ∀ e ∈ contexts, ∀ label, e.2.executionPlatform = some label → ∃ p, p.label = label ∧
    r.Provides target (AsksType rule e.1) (AsksConstraint t rule c own e.1) p e.2
  /-- Without platforms there are only contexts that serve nothing. -/
  unplaced : ∀ e ∈ contexts, e.2.executionPlatform = none →
    r.executionPlatforms = [] ∧ ∀ type, ¬ AsksType rule e.1 type
  forced : ∀ forced, platform = some forced → ∀ e ∈ contexts, e.1 = ExecGroup.defaultName →
    e.2.executionPlatform = some forced
  /-- The other groups are resolved as if no platform were forced. -/
  unforced : ∀ e ∈ contexts, e.1 ≠ ExecGroup.defaultName →
    ∃ g, (e.1, g) ∈ groups.groups ∧ r.resolve (keyOf t c none (e.1, g)) = .ok e.2

/-- The trimmed configuration has the target platform of the configuration. -/
theorem targetConstraints_keyOf :
    r.targetConstraints (keyOf t c platform g) = .ok target ↔ r.HasTarget c target := by
  have hplatform : (keyOf t c platform g).targetPlatform = c.options.platform.targetPlatform := rfl
  unfold ToolchainRegistry.targetConstraints ToolchainRegistry.HasTarget
  rw [hplatform]
  cases c.options.platform.targetPlatform with
  | none => exact ⟨fun h => (Except.ok.inj h).symm, fun h => congrArg _ h.symm⟩
  | some p =>
      dsimp only
      cases r.targetPlatforms.get? p with
      | none => simp
      | some target => simp

theorem groupsOf_eq_ok {groups : ExecGroups} (h : groupsOf t rule c = .ok groups) :
    ∃ own, t.constraints = .ok own ∧ groups = .ofDeclared
      { toolchainTypes := rule.toolchainTypes
        constraints := rule.constraints.insertAll (own ++ c.executionConstraintsFor t.label) }
      rule.execGroups := by
  unfold groupsOf at h
  split at h
  next => cases h
  next own hown => exact ⟨own, hown, (Except.ok.inj h).symm⟩

theorem asksType_iff {groups : ExecGroups} (h : groupsOf t rule c = .ok groups)
    (hg : g ∈ groups.groups) (type : Label) :
    AsksType rule g.1 type ↔ type ∈ g.2.toolchainTypes := by
  obtain ⟨own, _, rfl⟩ := groupsOf_eq_ok h
  exact ExecGroups.asks_iff (fun _ _ => ExecGroup.mem_toolchainTypes_resolve) (fun _ => .rfl) hg
    type

theorem asksConstraint_iff {groups : ExecGroups} {own : List Label}
    (h : groupsOf t rule c = .ok groups) (hown : t.constraints = .ok own)
    (hg : g ∈ groups.groups) (l : Label) :
    AsksConstraint t rule c own g.1 l ↔ l ∈ g.2.constraints := by
  obtain ⟨own', hown', rfl⟩ := groupsOf_eq_ok h
  obtain rfl := Except.ok.inj (hown'.symm.trans hown)
  refine ExecGroups.asks_iff (fun _ _ => ExecGroup.mem_constraints_resolve) (fun l => ?_) hg l
  rw [SortedSet.mem_insertAll, List.mem_append, Configuration.mem_executionConstraintsFor]

theorem map_fst_groupsOf {groups : ExecGroups} (h : groupsOf t rule c = .ok groups) :
    groups.groups.map Prod.fst = ExecGroup.defaultName ::
      ((Listing.ofEntries rule.execGroups).map Prod.fst).filter (· != ExecGroup.defaultName) := by
  obtain ⟨_, _, rfl⟩ := groupsOf_eq_ok h
  rw [ExecGroups.groups_ofDeclared, List.map_cons, List.map_map, List.filter_map]
  rfl

/-- What the resolution for a group has settled on, as the group asks for it. -/
theorem settled_of_resolve {groups : ExecGroups} {own : List Label} {context : ToolchainContext}
    (hgroups : groupsOf t rule c = .ok groups) (hown : t.constraints = .ok own)
    (htarget : r.HasTarget c target) (hg : g ∈ groups.groups)
    (h : r.resolve (keyOf t c platform g) = .ok context) :
    (context.executionPlatform = none ∧ r.executionPlatforms = [] ∧
        (∀ type, ¬ AsksType rule g.1 type) ∧ (keyOf t c platform g).platform = none) ∨
      ∃ p, r.Provides target (AsksType rule g.1) (AsksConstraint t rule c own g.1) p context ∧
        ∀ forced, (keyOf t c platform g).platform = some forced → p.label = forced := by
  obtain ⟨target', htarget', hsettled⟩ := ToolchainRegistry.resolve_eq_ok h
  obtain rfl := Except.ok.inj ((targetConstraints_keyOf.mpr htarget).symm.trans htarget')
  rcases hsettled with ⟨rfl, hplatforms, htypes, hforced⟩ | ⟨p, hp, hforced⟩
  · refine .inl ⟨rfl, hplatforms, fun type htype => ?_, hforced⟩
    have hmem : type ∈ (keyOf t c platform g).types.members :=
      (asksType_iff hgroups hg type).mp htype
    rw [htypes] at hmem
    cases hmem
  · exact .inr ⟨p, hp.congr (asksType_iff hgroups hg) (asksConstraint_iff hgroups hown hg), hforced⟩

/-- Contexts that are resolved for the groups of a target are provided for them. -/
theorem providedBy_of_resolve {groups : ExecGroups} {own : List Label}
    {contexts : List (String × ToolchainContext)} (hgroups : groupsOf t rule c = .ok groups)
    (hown : t.constraints = .ok own) (htarget : r.HasTarget c target)
    (h : List.Forall₂ (fun g e => e.1 = g.1 ∧ r.resolve (keyOf t c platform g) = .ok e.2)
      groups.groups contexts) : ProvidedBy r t rule c platform own target groups contexts := by
  have hfst : contexts.map Prod.fst = groups.groups.map Prod.fst := by
    rw [eq_comm, ← List.forall₂_eq_eq_eq, List.forall₂_map_left_iff, List.forall₂_map_right_iff]
    exact h.imp fun g e he => he.1.symm
  have hnames := map_fst_groupsOf hgroups
  have hgroup : ∀ e ∈ contexts, ∃ g, (e.1, g) ∈ groups.groups ∧
      r.resolve (keyOf t c platform (e.1, g)) = .ok e.2 := fun e he => by
    obtain ⟨⟨name, g⟩, hg, hname, hresolve⟩ := Engine.exists_of_mem_right h he
    obtain rfl : e.1 = name := hname
    exact ⟨g, hg, hresolve⟩
  exact {
    covers := hfst
    distinct := by
      rw [hfst, hnames]
      refine List.nodup_cons.mpr ⟨by simp, ?_⟩
      exact (Listing.nodup_ofEntries _).filter _
    names := hfst.trans hnames
    placed := fun e he label hlabel => by
      obtain ⟨g, hg, hresolve⟩ := hgroup e he
      rcases settled_of_resolve hgroups hown htarget hg hresolve with ⟨hnone, _⟩ | ⟨p, hp, _⟩
      · cases hnone.symm.trans hlabel
      · exact ⟨p, Option.some.inj (hp.chosen.symm.trans hlabel), hp⟩
    unplaced := fun e he hnone => by
      obtain ⟨g, hg, hresolve⟩ := hgroup e he
      rcases settled_of_resolve hgroups hown htarget hg hresolve with
        ⟨_, hplatforms, htypes, _⟩ | ⟨p, hp, _⟩
      · exact ⟨hplatforms, htypes⟩
      · cases hnone.symm.trans hp.chosen
    forced := fun forced hforced e he hname => by
      obtain ⟨g, hg, hresolve⟩ := hgroup e he
      have hkey : (keyOf t c platform (e.1, g)).platform = some forced :=
        (if_pos hname).trans hforced
      rcases settled_of_resolve hgroups hown htarget hg hresolve with
        ⟨_, _, _, hnone⟩ | ⟨p, hp, hsame⟩
      · cases hnone.symm.trans hkey
      · rw [hp.chosen, hsame forced hkey]
    unforced := fun e he hname => by
      obtain ⟨g, hg, hresolve⟩ := hgroup e he
      have hkey : keyOf t c none (e.1, g) = keyOf t c platform (e.1, g) := by
        simp only [keyOf, if_neg hname]
      exact ⟨g, hg, hkey ▸ hresolve⟩ }

/-- Let an engine begin with nothing and go through any history, and let the toolchains of a target
be resolved in it. If that succeeds with contexts, then there is exactly one for each execution
group, the default group first and then the others in the order in which the rule declares them.
Each context with a platform names a registered one that has all constraints of the group, and it
has for each toolchain type of the group, and for no other, the implementation of a registered
toolchain of that type that can be used there and for the target platform of the configuration. A
platform that is forced is that of the default group, and all other groups are resolved as if none
were. -/
theorem resolved_contexts_provided {services : Option Services} {start : AnalysisSession}
    (empty : start.store = {}) {history : List (Engine.Call analysisSpace)}
    (proper : ∀ call ∈ history, call.Proper (AnalysisKey.computation services))
    {nest : Engine.Nest analysisSpace} {s : AnalysisSession}
    (hs : s.store = (start.after history).store) {t : Target} {rule : Rule} {c : Configuration}
    {platform : Option Label} {f f' : Findings} {groups : ExecGroups}
    {contexts : List (String × ToolchainContext)}
    (succeeds : (((resolve t rule c platform).runFrom f).run.run nest { session := s }).1 =
      .ok (.ok ⟨groups, some contexts⟩, f')) :
    ∃ (r : ToolchainRegistry) (own : List Label) (target : SortedSet Label),
      s.store.value? .registry = some r ∧ t.constraints = .ok own ∧ r.HasTarget c target ∧
      ProvidedBy r t rule c platform own target groups contexts := by
  have hst := consistent_after empty proper hs
  obtain ⟨ks, es, hyields⟩ :=
    Engine.Demand.yields_of_run (resolve_has t rule c platform f) succeeds
  obtain ⟨groups', hgroups, hcontexts⟩ := yields_resolve_ok ⟨es, hyields⟩
  split at hcontexts
  next =>
    obtain ⟨cs, heq, hcs⟩ := hcontexts
    cases heq
    obtain ⟨own, hown, hdeclared⟩ := groupsOf_eq_ok hgroups
    have hdefault : groups.groups ≠ [] := by
      rw [hdeclared, ExecGroups.groups_ofDeclared]
      exact List.cons_ne_nil _ _
    obtain ⟨g, hg⟩ := List.exists_mem_of_ne_nil _ hdefault
    obtain ⟨e, _, _, hv⟩ := Engine.exists_of_mem_left hcs hg
    obtain ⟨r, hr, hresolve⟩ := AnalysisKey.value?_toolchains_ok hst hv
    obtain ⟨target, htarget, _⟩ := ToolchainRegistry.resolve_eq_ok hresolve
    have htarget := targetConstraints_keyOf.mp htarget
    refine ⟨r, own, target, hr, hown, htarget,
      providedBy_of_resolve hgroups hown htarget (hcs.imp fun g e he => ⟨he.1, ?_⟩)⟩
    obtain ⟨r', hr', hresolve'⟩ := AnalysisKey.value?_toolchains_ok hst he.2
    obtain rfl := Option.some.inj (hr.symm.trans hr')
    exact hresolve'
  next => cases hcontexts

end ToolchainContexts

end BuildAnalysis

/-! A target with three execution groups, for one of which a platform is forced. -/

namespace BuildAnalysis.ToolchainsSample

open BuiltinRules.AliasSample (loading loading_proper start)
open FragmentsSample (armLabel compute compute_interrupts gccLabel goLabel libraries typeLabel)

def riscvLabel : Label := ⟨armLabel.package, ⟨"riscv", rfl, by decide⟩⟩

def hostLabel : Label := ⟨armLabel.package, ⟨"host", rfl, by decide⟩⟩

def vectorLabel : Label := ⟨armLabel.package, ⟨"vector", rfl, by decide⟩⟩

def osLabel : Label := ⟨armLabel.package, ⟨"os", rfl, by decide⟩⟩

def registry : ToolchainRegistry :=
  { executionPlatforms := [⟨armLabel, ∅⟩, ⟨riscvLabel, .ofList [vectorLabel]⟩]
    targetPlatforms := .ofList [(hostLabel, .ofList [osLabel])]
    toolchains := [⟨typeLabel, gccLabel, .ofList [vectorLabel], .ofList [osLabel]⟩] }

def rule : Rule :=
  { BuiltinRules.AliasSample.rule "plain" [] FragmentsSample.nodup_constraints with
    usesToolchainResolution := true
    execGroups :=
      [("link", { toolchainTypes := .ofList [typeLabel], inherits := true }), ("test", {})] }

def program : Target :=
  { label := goLabel
    kind := .rule rule
    values := [(Rule.constraintsAttr, .labelList [vectorLabel])] }

def programs : Package where
  label := goLabel.package
  targets := [program]
  owned := by decide
  distinct := by decide

def host : Configuration := .ofOptions (({} : BuildOptions).setTargetPlatform (some hostLabel))

def history : List (Engine.Call analysisSpace) :=
  [loading [libraries, programs], .commit [.inject (S := analysisSpace) .registry registry],
    .compute compute {} true (.target ⟨goLabel, some host.key, some riscvLabel⟩)]

def session : AnalysisSession := Engine.Session.after start history

def resolved : Except Engine.Suspension (Except Abort ToolchainContexts × Findings) :=
  (((ToolchainContexts.resolve program rule host (some riscvLabel)).runFrom {}).run.run
    (Engine.nestWithin compute {}) { session := session }).1

theorem history_proper : ∀ call ∈ history, call.Proper compute := by
  intro call hcall
  simp only [history, List.mem_cons, List.not_mem_nil, or_false] at hcall
  rcases hcall with rfl | rfl | rfl
  · exact loading_proper _
  · exact List.forall_mem_singleton.mpr rfl
  · exact compute_interrupts

/-- The group without requirements has the first platform, the others the one that is forced or
needed. -/
theorem resolved_eq_ok : ∃ groups contexts f, resolved = .ok (.ok ⟨groups, some contexts⟩, f) ∧
    contexts.map (fun e => (e.1, e.2.executionPlatform)) =
      [(ExecGroup.defaultName, some riscvLabel), ("link", some riscvLabel),
        ("test", some armLabel)] := by
  have hmap : (Staged.ended? resolved).bind (fun p => p.1.contexts.map fun contexts =>
      contexts.map fun e => (e.1, e.2.executionPlatform)) =
      some [(ExecGroup.defaultName, some riscvLabel), ("link", some riscvLabel),
        ("test", some armLabel)] := by
    decide +kernel
  obtain ⟨⟨⟨groups, _⟩, f⟩, hrun, hcontexts⟩ := Option.bind_eq_some_iff.mp hmap
  obtain ⟨contexts, rfl, hplatforms⟩ := Option.map_eq_some_iff.mp hcontexts
  exact ⟨groups, contexts, f, Staged.ended?_eq_some hrun, hplatforms⟩

theorem resolved_contexts_provided_program : ∃ groups contexts f r own target,
    resolved = .ok (.ok ⟨groups, some contexts⟩, f) ∧
    session.store.value? .registry = some r ∧ program.constraints = .ok own ∧
    r.HasTarget host target ∧
    ToolchainContexts.ProvidedBy r program rule host (some riscvLabel) own target groups
      contexts := by
  obtain ⟨groups, contexts, f, hrun, _⟩ := resolved_eq_ok
  obtain ⟨r, own, target, hprovided⟩ :=
    ToolchainContexts.resolved_contexts_provided rfl history_proper rfl hrun
  exact ⟨groups, contexts, f, r, own, target, hrun, hprovided⟩

end BuildAnalysis.ToolchainsSample
