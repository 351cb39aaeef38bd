import BuildAnalysis.Proofs.Analysis.FanOut
import BuildAnalysis.Proofs.Collection.Sorted
import BuildAnalysis.Proofs.Configuration.Trim
import Mathlib.Logic.Relation

/-!
# The fragments below a label

The cached fragments of a label are those that some target reads to which one gets by going from
dependency attribute to dependency attribute, whatever branches these take. A configured target gets
to its dependencies by attributes and by toolchains. What it gets to by attributes alone is covered
by its fragments; a toolchain is not written in any attribute, so its fragments may be missing.
-/
namespace BuildAnalysis

open Engine (Store)
open Relation (ReflTransGen)

variable {services : Option Services} {st : Store analysisSpace}

/-- The target of a label mentions another label in a dependency attribute. -/
def Mentions (st : Store analysisSpace) (a b : Label) : Prop :=
  ∃ t, TargetAt st a t ∧ b ∈ t.unconfiguredDeps

/-- Some target that is mentioned below a label, or its own, reads a fragment. -/
def ReadBelow (st : Store analysisSpace) (label : Label) (fragment : String) : Prop :=
  ∃ b t, ReflTransGen (Mentions st) label b ∧ TargetAt st b t ∧
    fragment ∈ AnalysisKey.ownFragments t

namespace AnalysisKey

theorem mem_foldl_below {below : List (Label × Except Failure (SortedSet String))}
    {fs : SortedSet String} {f : String} :
    f ∈ below.foldl (fun fs e =>
        match e.2 with
        | .ok more => fs.union more
        | .error _ => fs) fs ↔
      f ∈ fs ∨ ∃ l more, (l, .ok more) ∈ below ∧ f ∈ more := by
  induction below generalizing fs with
  | nil => simp
  | cons e below ih =>
      obtain ⟨l, r⟩ := e
      rw [List.foldl_cons, ih]
      cases r with
      | error x => simp
      | ok more =>
          rw [SortedSet.mem_union, or_assoc]
          refine or_congr_right ⟨?_, ?_⟩
          · rintro (hf | ⟨l', more', hmem, hf⟩)
            · exact ⟨l, more, List.mem_cons_self, hf⟩
            · exact ⟨l', more', List.mem_cons_of_mem _ hmem, hf⟩
          · rintro ⟨l', more', hmem, hf⟩
            rcases List.mem_cons.mp hmem with heq | hmem
            · cases heq
              exact .inl hf
            · exact .inr ⟨l', more', hmem, hf⟩

/-- A target reads the fragments of its rule and those of the aspects of its attributes. -/
theorem mem_ownFragments {t : Target} {f : String} : f ∈ ownFragments t ↔
    f ∈ t.requiredFragments ∨ ∃ e ∈ t.attributes, ∃ a ∈ e.1.aspects, f ∈ a.requiredFragments := by
  rw [ownFragments, SortedSet.mem_foldl_union]
  simp only [List.mem_flatMap]
  refine or_congr_right ⟨?_, ?_⟩
  · rintro ⟨a, ⟨e, he, ha⟩, hf⟩
    exact ⟨e, he, a, ha, hf⟩
  · rintro ⟨e, he, a, ha, hf⟩
    exact ⟨a, ⟨e, he, ha⟩, hf⟩

/-- One step down: a cached fragment of a label is one that its target reads, or a cached fragment of
a label that the target mentions. -/
theorem mem_fragments_step (hst : Consistent services st) {label : Label} {t : Target}
    (ht : TargetAt st label t) {fs : SortedSet String}
    (hfs : st.value? (.fragments label) = some (.ok fs)) {f : String} :
    f ∈ fs ↔ f ∈ ownFragments t ∨ ∃ l more, l ∈ t.unconfiguredDeps ∧
      st.value? (.fragments l) = some (.ok more) ∧ f ∈ more := by
  obtain ⟨below, hbelow, hvalue⟩ := value?_fragments hst ht hfs
  obtain rfl := Except.ok.inj hvalue
  refine mem_foldl_below.trans (or_congr_right ⟨?_, ?_⟩)
  · rintro ⟨l, more, hmem, hf⟩
    obtain ⟨l', hl', r, hr, heq⟩ := Engine.exists_of_mem_right hbelow hmem
    cases heq
    exact ⟨l, more, hl', hr, hf⟩
  · rintro ⟨l, more, hl, hmore, hf⟩
    obtain ⟨p, hp, r, hr, rfl⟩ := Engine.exists_of_mem_left hbelow hl
    obtain rfl := Option.some.inj (hmore.symm.trans hr)
    exact ⟨l, more, hp, hf⟩

theorem exists_fragments_of_mentions (hst : Consistent services st) {a b : Label}
    (h : Mentions st a b) {r : Except Failure (SortedSet String)}
    (hr : st.value? (.fragments a) = some r) : ∃ r', st.value? (.fragments b) = some r' ∧
      Store.rank (S := analysisSpace) st (.fragments b) < st.rank (.fragments a) := by
  obtain ⟨t, ht, hb⟩ := h
  rcases value?_fragments_looked hst hr with ⟨e, _, he⟩ | ⟨t', below, ht', hbelow, _, hrank⟩
  · cases (lookedUp_ok.mpr ht).unique he
  · obtain rfl := ht.eq ht'
    obtain ⟨_, _, r', hr', _⟩ := Engine.exists_of_mem_left hbelow hb
    exact ⟨r', hr', hrank b hb⟩

theorem targetAt_of_fragments (hst : Consistent services st) {label : Label}
    {fs : SortedSet String} (hfs : st.value? (.fragments label) = some (.ok fs)) :
    ∃ t, TargetAt st label t := by
  rcases value?_fragments_looked hst hfs with ⟨e, herror, _⟩ | ⟨t, _, ht, _⟩
  · cases herror
  · exact ⟨t, ht⟩

/-- Cached fragments are those that are read at the label or below it. -/
theorem mem_fragments_iff (hst : Consistent services st) {label : Label} {fs : SortedSet String}
    (hfs : st.value? (.fragments label) = some (.ok fs)) {f : String} :
    f ∈ fs ↔ ReadBelow st label f := by
  constructor
  · -- The way down ends, because what is mentioned was cached before.
    intro hf
    induction hn : Store.rank (S := analysisSpace) st (.fragments label) using Nat.strongRecOn
      generalizing label fs with
    | ind n ih =>
      obtain ⟨t, ht⟩ := targetAt_of_fragments hst hfs
      rcases (mem_fragments_step hst ht hfs).mp hf with hown | ⟨l, more, hl, hmore, hf⟩
      · exact ⟨label, t, .refl, ht, hown⟩
      · have hmentions : Mentions st label l := ⟨t, ht, hl⟩
        obtain ⟨_, _, hlt⟩ := exists_fragments_of_mentions hst hmentions hfs
        obtain ⟨b, u, hreach, hu, hread⟩ := ih _ (hn ▸ hlt) hmore hf rfl
        exact ⟨b, u, .head hmentions hreach, hu, hread⟩
  · rintro ⟨b, u, hreach, hu, hread⟩
    induction hreach using ReflTransGen.head_induction_on generalizing fs with
    | refl => exact (mem_fragments_step hst hu hfs).mpr (.inl hread)
    | @head a c hmentions hreach ih =>
        obtain ⟨t, ht, hc⟩ := hmentions
        obtain ⟨r, hr, _⟩ := exists_fragments_of_mentions hst ⟨t, ht, hc⟩ hfs
        have hloaded : ∃ t', TargetAt st c t' := by
          rcases ReflTransGen.cases_head hreach with rfl | ⟨_, ⟨t', ht', _⟩, _⟩
          · exact ⟨u, hu⟩
          · exact ⟨t', ht'⟩
        obtain ⟨t', ht'⟩ := hloaded
        obtain ⟨_, _, rfl⟩ := value?_fragments hst ht' hr
        exact (mem_fragments_step hst ht hfs).mpr (.inr ⟨c, _, hc, hr, ih hr⟩)

/-- Fragments cached for a label cover those that the rule of a target requires which is mentioned
below it. -/
theorem required_subset_fragments (hst : Consistent services st) {a b : Label}
    (h : ReflTransGen (Mentions st) a b) {fs : SortedSet String}
    (hfs : st.value? (.fragments a) = some (.ok fs)) {t : Target} (ht : TargetAt st b t) :
    ∀ f ∈ t.requiredFragments, f ∈ fs := fun _ hf =>
  (mem_fragments_iff hst hfs).mpr ⟨b, t, h, ht, mem_ownFragments.mpr (.inl hf)⟩

end AnalysisKey

namespace TargetKey

variable {k l : TargetKey}

/-- A key leads to another by an attribute: it fans out to it. -/
def AttributeHop (st : Store analysisSpace) (k l : TargetKey) : Prop :=
  ∃ x, k.FansOut st x ∧ ∃ d ∈ x.dependencies, (∃ attr, d.kind = .attribute attr) ∧ d.key = l

/-- A key leads to another by a toolchain. -/
def ToolchainHop (st : Store analysisSpace) (k l : TargetKey) : Prop :=
  ∃ x, k.FansOut st x ∧ ∃ d ∈ x.dependencies, (∃ group, d.kind = .toolchain group) ∧ d.key = l

/-- The cached value of a key has another among its dependencies. -/
def DependsOn (st : Store analysisSpace) (k l : TargetKey) : Prop :=
  ∃ v, st.value? (.target k) = some (.ok v) ∧ l ∈ v.dependencies

theorem FansOut.mentions (hst : Consistent services st) {x : Fan} (h : k.FansOut st x)
    {d : Dependency} (hd : d ∈ x.dependencies) {attr : String} (hkind : d.kind = .attribute attr) :
    Mentions st k.label d.label := by
  have hgrounded := h.grounded hst
  obtain ⟨e, he, hbecomes⟩ := hgrounded.dependencies d hd
  obtain ⟨a, ha⟩ := hgrounded.ofAttribute he (hbecomes.kind.symm.trans hkind)
  refine ⟨_, hgrounded.target, ?_⟩
  rw [hbecomes.label]
  exact ha.mem_unconfiguredDeps

theorem AttributeHop.mentions (hst : Consistent services st) (h : AttributeHop st k l) :
    Mentions st k.label l.label := by
  obtain ⟨x, hx, d, hd, ⟨attr, hkind⟩, rfl⟩ := h
  exact hx.mentions hst hd hkind

theorem DependsOn.hop (hst : Consistent services st) (h : DependsOn st k l) :
    (∃ t, TargetAt st l.label t) ∧ (AttributeHop st k l ∨ ToolchainHop st k l) := by
  obtain ⟨v, hv, hl⟩ := h
  obtain ⟨x, hx, d, hd, rfl⟩ := fansOut_of_mem_dependencies hst hv hl
  have hgrounded := hx.grounded hst
  obtain ⟨e, he, hbecomes⟩ := hgrounded.dependencies d hd
  refine ⟨hgrounded.loaded hd, ?_⟩
  rcases EdgeSource.mem_edges rfl hgrounded.edges he with ⟨a, ha⟩ | ⟨group, hgroup⟩
  · exact .inl ⟨x, hx, d, hd, ⟨a.1.name, hbecomes.kind.trans ha.kind⟩, rfl⟩
  · exact .inr ⟨x, hx, d, hd, ⟨group, hbecomes.kind.trans hgroup⟩, rfl⟩

/-- What is reached along dependencies is reached along attributes, or there is a last toolchain on
the way. -/
theorem reaches_cases (hst : Consistent services st) (h : ReflTransGen (DependsOn st) k l) :
    ReflTransGen (AttributeHop st) k l ∨
      ∃ i j, ReflTransGen (DependsOn st) k i ∧ ToolchainHop st i j ∧
        ReflTransGen (AttributeHop st) j l := by
  induction h with
  | refl => exact .inl .refl
  | @tail i j hreach hdepends ih =>
      rcases (hdepends.hop hst).2 with hhop | hhop
      · rcases ih with hattributes | ⟨m, n, hm, htoolchain, hn⟩
        · exact .inl (hattributes.tail hhop)
        · exact .inr ⟨m, n, hm, htoolchain, hn.tail hhop⟩
      · exact .inr ⟨i, j, hreach, hhop, .refl⟩

theorem mentions_of_attributeHops (hst : Consistent services st)
    (h : ReflTransGen (AttributeHop st) k l) :
    ReflTransGen (Mentions st) k.label l.label :=
  h.lift label fun _ _ hhop => hhop.mentions hst

/-- How the fragments of a key treat what the key leads to: when trimming to them keeps all options
that its rule requires, that they do keep them along attributes, and what else is on the way. -/
structure Treats (st : Store analysisSpace) (k : TargetKey) (fs : SortedSet String) (l : TargetKey)
    (t : Target) : Prop where
  keeps_iff : (∀ f ∈ t.requiredFragments, ∀ (o : BuildOptions) (option : String),
      (o.trim fs).option? f option = o.option? f option) ↔
    ∀ f ∈ t.requiredFragments, ReadBelow st k.label f
  attributes : ReflTransGen (AttributeHop st) k l → ∀ f ∈ t.requiredFragments, f ∈ fs
  toolchains : ReflTransGen (AttributeHop st) k l ∨
    ∃ i j, ReflTransGen (DependsOn st) k i ∧ ToolchainHop st i j ∧
      ReflTransGen (AttributeHop st) j l

theorem treats (hst : Consistent services st) {fs : SortedSet String}
    (hfs : st.value? (.fragments k.label) = some (.ok fs))
    (hreach : ReflTransGen (DependsOn st) k l) {t : Target} (ht : TargetAt st l.label t) :
    Treats st k fs l t where
  keeps_iff := forall₂_congr fun _ _ =>
    BuildOptions.trim_keeps_iff.trans (AnalysisKey.mem_fragments_iff hst hfs)
  attributes hhops :=
    AnalysisKey.required_subset_fragments hst (mentions_of_attributeHops hst hhops) hfs ht
  toolchains := reaches_cases hst hreach

/-- Let an engine begin with nothing and go through any history, and let the fragments of a key's
label be cached. These are the fragments that are read at the label or below it in attributes. Let
the dependencies of cached values lead from the key to another one. Then its target was loaded, and
trimming to the fragments keeps the options that its rule requires if attributes alone lead there.
Otherwise there is a last toolchain on the way, and the options are kept exactly if all that the
rule requires is read below the label anyway. -/
theorem fragments_cover_attributes {start : AnalysisSession} (empty : start.store = {})
    {history : List (Engine.Call analysisSpace)}
    (proper : ∀ call ∈ history, call.Proper (AnalysisKey.computation services))
    {s : AnalysisSession} (hs : s.store = (start.after history).store) {fs : SortedSet String}
    (hfs : s.store.value? (.fragments k.label) = some (.ok fs)) :
    (∀ f, f ∈ fs ↔ ReadBelow s.store k.label f) ∧
      ∀ l, ReflTransGen (DependsOn s.store) k l →
        ∃ t, TargetAt s.store l.label t ∧ Treats s.store k fs l t := by
  have hst := consistent_after empty proper hs
  refine ⟨fun f => AnalysisKey.mem_fragments_iff hst hfs, fun l hreach => ?_⟩
  have hloaded : ∃ t, TargetAt s.store l.label t := by
    rcases ReflTransGen.cases_tail hreach with rfl | ⟨_, _, hdepends⟩
    · exact AnalysisKey.targetAt_of_fragments hst hfs
    · exact (hdepends.hop hst).1
  obtain ⟨t, ht⟩ := hloaded
  exact ⟨t, ht, treats hst hfs hreach ht⟩

end TargetKey

end BuildAnalysis

/-! A target that gets to a library by a toolchain, and one that gets to it by an attribute. -/

namespace BuildAnalysis.FragmentsSample

open BuiltinRules.AliasSample (binLabel loading rule start)
open TargetKey (AttributeHop DependsOn)

def gccLabel : Label := ⟨⟨"cpp", rfl, by decide⟩, ⟨"gcc", rfl, by decide⟩⟩

def typeLabel : Label := ⟨gccLabel.package, ⟨"toolchain_type", rfl, by decide⟩⟩

def armLabel : Label := ⟨⟨"platforms", rfl, by decide⟩, ⟨"arm", rfl, by decide⟩⟩

def goLabel : Label := ⟨binLabel.package, ⟨"go", rfl, by decide⟩⟩

def userLabel : Label := ⟨goLabel.package, ⟨"user", rfl, by decide⟩⟩

theorem nodup_constraints : ((Rule.constraintsDecl :: []).map fun a => a.name).Nodup := by decide

theorem nodup_deps :
    ((Rule.constraintsDecl :: [.ofDecl (.dep "deps")]).map fun a => a.name).Nodup := by decide

def gcc : Target :=
  { label := gccLabel
    kind := .rule { rule "plain" [] nodup_constraints with requiredFragments := .ofList ["jvm"] }
    values := [] }

def go : Target :=
  { label := goLabel
    kind := .rule { rule "plain" [] nodup_constraints with
      toolchainTypes := .ofList [typeLabel], usesToolchainResolution := true }
    values := [] }

def user : Target :=
  { label := userLabel
    kind := .rule (rule "plain" [.ofDecl (.dep "deps")] nodup_deps)
    values := [("deps", .labelList [gccLabel])] }

def libraries : Package where
  label := gccLabel.package
  targets := [gcc]
  owned := by decide
  distinct := by decide

def programs : Package where
  label := goLabel.package
  targets := [go, user]
  owned := by decide
  distinct := by decide

def registry : ToolchainRegistry :=
  (({} : ToolchainRegistry).addExecutionPlatform armLabel []).addToolchain
    ⟨typeLabel, gccLabel, ∅, ∅⟩

def plain : RuleImplementation := fun _ => return .providers ∅

def services : Services :=
  { implementations := ({} : Implementations).addRule "plain" plain }

def compute : Engine.Computation analysisSpace := AnalysisKey.computation (some services)

def fast : Configuration := .ofOptions (({} : BuildOptions).setOption "jvm" "mode" "fast")

def goKey : TargetKey := ⟨goLabel, some fast.key, none⟩

def userKey : TargetKey := ⟨userLabel, some fast.key, none⟩

def gccKey : TargetKey := ⟨gccLabel, some fast.key, none⟩

def history : List (Engine.Call analysisSpace) :=
  [loading [libraries, programs], .commit [.inject (S := analysisSpace) .registry registry],
    .computeMany compute {} true
      [.target goKey, .fragments goLabel, .target userKey, .fragments userLabel]]

def session : AnalysisSession := Engine.Session.after start history

theorem compute_interrupts : Engine.Computation.Interrupts compute compute := by
  have hservices : AnalysisKey.ServicesLawful (some services) := by
    intro s hs
    obtain rfl := Option.some.inj hs
    exact Implementations.lawful_iff.mpr (Implementations.have_empty.addRule fun _ => .pure _)
  exact .refl (AnalysisKey.computation_lawful hservices)

theorem history_proper : ∀ call ∈ history, call.Proper compute := by
  intro call hcall
  simp only [history, List.mem_cons, List.not_mem_nil, or_false] at hcall
  rcases hcall with rfl | rfl | rfl
  · exact BuiltinRules.AliasSample.loading_proper _
  · exact List.forall_mem_singleton.mpr rfl
  · exact compute_interrupts

theorem dependsOn_gcc {k : TargetKey} (h : (success? (session.store.value? (.target k))).map
    TargetValue.dependencies = some [gccKey]) : DependsOn session.store k gccKey := by
  obtain ⟨v, hv, hdeps⟩ := Option.map_eq_some_iff.mp h
  exact ⟨v, success?_eq_some hv, hdeps ▸ List.mem_cons_self⟩

theorem targetAt_gcc : TargetAt session.store gccLabel gcc :=
  ⟨libraries, success?_eq_some (by decide +kernel), rfl⟩

theorem attributeHop_gcc : AttributeHop session.store userKey gccKey := by
  have hfan : (TargetKey.fan? session.store userKey).map (fun x => x.dependencies) =
      some [{ kind := .attribute "deps", label := gccLabel, configuration := some fast }] := by
    decide +kernel
  obtain ⟨x, hx, hdeps⟩ := Option.map_eq_some_iff.mp hfan
  exact ⟨x, TargetKey.fansOut_of_fan? hx, _, hdeps ▸ List.mem_cons_self, ⟨"deps", rfl⟩, rfl⟩

theorem fragments_cover_attributes_user : ∃ fs,
    session.store.value? (.fragments userLabel) = some (.ok fs) ∧
    DependsOn session.store userKey gccKey ∧ AttributeHop session.store userKey gccKey ∧
    ∀ f ∈ gcc.requiredFragments, f ∈ fs := by
  have hfs : session.store.value? (.fragments userLabel) = some (.ok (.ofList ["jvm"])) :=
    success?_eq_some (by decide +kernel)
  have hdepends : DependsOn session.store userKey gccKey := dependsOn_gcc (by decide +kernel)
  obtain ⟨t, ht, htreats⟩ := (TargetKey.fragments_cover_attributes rfl history_proper rfl
    (k := userKey) hfs).2 gccKey (.single hdepends)
  obtain rfl := targetAt_gcc.eq ht
  exact ⟨_, hfs, hdepends, attributeHop_gcc, htreats.attributes (.single attributeHop_gcc)⟩

/-- A toolchain whose fragment is not among those of the target that needs it. Trimming to these
removes an option that is set. -/
theorem toolchain_fragments_missing : ∃ fs,
    DependsOn session.store goKey gccKey ∧
    session.store.value? (.fragments goLabel) = some (.ok fs) ∧
    TargetAt session.store gccLabel gcc ∧
    ¬ (∀ f ∈ gcc.requiredFragments, f ∈ fs) ∧
    "jvm" ∈ gcc.requiredFragments ∧ fast.options.option? "jvm" "mode" = some "fast" ∧
    (fast.options.trim fs).option? "jvm" "mode" = none := by
  have hfs : session.store.value? (.fragments goLabel) = some (.ok ∅) :=
    success?_eq_some (by decide +kernel)
  exact ⟨∅, dependsOn_gcc (by decide +kernel), hfs, targetAt_gcc, by decide, by decide, by decide,
    by decide⟩

end BuildAnalysis.FragmentsSample
