import Mathlib.Logic.Relation
import BuildAnalysis.Proofs.Analysis.ToolchainLoading
import BuildAnalysis.Proofs.Analysis.Trimming

/-!
# Chains of aliases

An alias that is analyzed in a configuration requests the target of its attribute, as the attribute
comes to in this configuration, in the options trimmed for that target. So each alias has one target
to go on to, and along a chain of aliases the value of the last target is handed back unchanged but
for the label of the alias it was requested by.
-/
namespace BuildAnalysis

open Engine (Store)
open BuiltinRules (Installed)

variable {services : Services} {st : Store analysisSpace} {c : Configuration}

namespace Conditions

variable {conds conds' : Conditions} {keys : List Label}

/-- The conditions turned out as the cached values of their targets say. -/
def AllRecorded (st : Store analysisSpace) (c : Configuration) (keys : List Label)
    (conds : Conditions) : Prop :=
  ∀ key ∈ keys, ∃ m, conds.get? key = some m ∧ Recorded st c key m

theorem Recorded.eq {key : Label} {m m' : ConditionMatch} (h : Recorded st c key m)
    (h' : Recorded st c key m') : m = m' := by
  obtain ⟨v, hv, hm⟩ := h
  obtain ⟨v', hv', hm'⟩ := h'
  have hsame : v = v' := Except.ok.inj (Option.some.inj (hv.symm.trans hv'))
  subst hsame
  exact Option.some.inj (hm.symm.trans hm')

theorem AllRecorded.alike (h : AllRecorded st c keys conds) (h' : AllRecorded st c keys conds') :
    (conds.context c).ExtendedOn keys (conds'.context c) := by
  refine context_extendedOn fun key hkey => ?_
  obtain ⟨m, hm, hrecorded⟩ := h key hkey
  obtain ⟨m', hm', hrecorded'⟩ := h' key hkey
  have hsame : m = m' := hrecorded.eq hrecorded'
  exact ⟨m, m', hm, hm', by rw [hsame], by rw [hsame]⟩

end Conditions

/-- What an attribute comes to in a configuration, with its conditions as they are cached. -/
def AttrExpr.ComesTo (st : Store analysisSpace) (c : Configuration) (e : AttrExpr)
    (v : AttrValue) : Prop :=
  ∃ conds, Conditions.AllRecorded st c e.keyOccurrences conds ∧
    conds.configure (some c) e = .ok v

theorem AttrExpr.ComesTo.eq {e : AttrExpr} {v v' : AttrValue} (h : e.ComesTo st c v)
    (h' : e.ComesTo st c v') : v = v' := by
  obtain ⟨conds, hrecorded, hv⟩ := h
  obtain ⟨conds', hrecorded', hv'⟩ := h'
  have hsame : conds'.configure (some c) e = .ok v :=
    AttrExpr.configure_extended e (hrecorded.alike hrecorded') v hv
  exact Except.ok.inj (hsame.symm.trans hv')

namespace BuiltinRules

variable {k k' : TargetKey}

def requestedKey (st : Store analysisSpace) (c : Configuration) (l : Label) (u : Target) :
    TargetKey :=
  ⟨l, if u.isConfigurable then some (EdgeSource.trimmedFor st l c.options).key else none, none⟩

inductive Hop (st : Store analysisSpace) (k : TargetKey) : TargetKey → Prop where
  | mk {c : ConfigurationKey} {t u : Target} {e : AttrExpr} {l : Label}
      (configured : k.configuration = some c) (target : TargetAt st k.label t)
      (stands : IsAlias t) (actual : t.attr? "actual" = some e)
      (comes : e.ComesTo st ⟨c⟩ (.label l)) (aim : TargetAt st l u) :
      Hop st k (requestedKey st ⟨c⟩ l u)

theorem Hop.unique {a b : TargetKey} (ha : Hop st k a) (hb : Hop st k b) : a = b := by
  cases ha with
  | mk configured target _ actual comes aim =>
  cases hb with
  | mk configured' target' _ actual' comes' aim' =>
  have hc := Option.some.inj (configured.symm.trans configured')
  subst hc
  have ht := target.eq target'
  subst ht
  have he := Option.some.inj (actual.symm.trans actual')
  subst he
  have hl := AttrValue.label.inj (comes.eq comes')
  subst hl
  rw [aim.eq aim']

/-- A value is handed on by an alias: it is the same but for the label it was requested by. -/
structure HandsOn (l : Label) (v w : TargetValue) : Prop where
  label : v.label = w.label
  configuration : v.configuration = w.configuration
  kind : v.kind = w.kind
  providers : v.providers = w.providers
  aliasLabel : v.aliasLabel = some l

theorem HandsOn.trans {a b : Label} {u v w : TargetValue} (h : HandsOn a u v)
    (h' : HandsOn b v w) : HandsOn a u w where
  label := h.label.trans h'.label
  configuration := h.configuration.trans h'.configuration
  kind := h.kind.trans h'.kind
  providers := h.providers.trans h'.providers
  aliasLabel := h.aliasLabel

theorem IsAlias.comesTo {t : Target} (h : IsAlias t) {conds : Conditions} {f f' : Findings}
    {ks : List AnalysisKey} {e : AttrExpr} (he : t.attr? "actual" = some e) {v : AttrValue}
    (hconds : Staged.Yields st f (Conditions.ofTarget t (some c)) (.ok conds) f' ks)
    (hv : conds.configure (some c) e = .ok v) : e.ComesTo st c v := by
  have hattribute : (.ofDecl (.dep "actual"), e) ∈ t.attributes := by
    rw [h.attributes_eq he]
    exact List.mem_cons_of_mem _ List.mem_cons_self
  exact ⟨conds, fun key hkey =>
    Conditions.yields_ofTarget_ok hconds (Target.mem_selectKeys hattribute hkey), hv⟩

section
variable {s : EdgeSource} {l : Label}

/-- The edge of an alias expands to one dependency, which names the target as it is requested. -/
theorem expands_aliasEdge (hc : s.configuration = some c) {ds : List Dependency}
    (h : s.Expands st (aliasEdge l) ds) :
    ∃ configuration u, ds = [EdgeSource.dependency (aliasEdge l) none configuration] ∧
      TargetAt st l u ∧
      (EdgeSource.dependency (aliasEdge l) none configuration).key = requestedKey st c l u := by
  cases h with
  | unconfigured hnone =>
      rw [hc] at hnone
      cases hnone
  | @independent u hu hfixed =>
      refine ⟨none, u, rfl, hu, ?_⟩
      rw [requestedKey, hfixed]
      rfl
  | dropped hleads =>
      obtain ⟨_, _, _, _, _, happly⟩ := hleads
      cases happly
  | patched hleads =>
      obtain ⟨parent, u, hparent, hu, hconfigurable, happly⟩ := hleads
      obtain rfl := Option.some.inj (hc.symm.trans hparent)
      cases happly
      refine ⟨_, u, rfl, hu, ?_⟩
      rw [requestedKey, hconfigurable]
      rfl
  | split hleads =>
      obtain ⟨_, _, _, _, _, happly⟩ := hleads
      cases happly

theorem entries_of_aliasEdge (hc : s.configuration = some c) {parts : List (List Dependency)}
    {b : DependencyBundle} (h : s.Bundles st [aliasEdge l] parts b) :
    ∃ configuration u a, TargetAt st l u ∧
      b.entries = [(EdgeSource.dependency (aliasEdge l) none configuration, a)] ∧
      st.value? (.target (requestedKey st c l u)) = some (.ok a.value) := by
  obtain ⟨hexpands, hdeps⟩ := h.expanded
  cases hexpands with
  | cons hds hrest =>
  cases hrest
  obtain ⟨configuration, u, rfl, hu, hkey⟩ := expands_aliasEdge hc hds
  have hentries : b.entries.map Prod.fst =
      [EdgeSource.dependency (aliasEdge l) none configuration] := by
    rw [hc] at hdeps
    exact hdeps
  obtain ⟨⟨d, a⟩, hentries, hd⟩ := List.map_eq_singleton_iff.mp hentries
  obtain rfl : d = EdgeSource.dependency (aliasEdge l) none configuration := hd
  have hsupplied : EdgeSource.Supplied st _ a := h.supplied _ (hentries ▸ List.mem_cons_self)
  have hvalue := (hsupplied.analyzed rfl).1
  rw [hkey] at hvalue
  exact ⟨configuration, u, a, hu, hentries, hvalue⟩

end

theorem valueOf_standsFor {l : Label} {configuration : Option Configuration} {a : AnalyzedTarget}
    {b : DependencyBundle}
    (h : b.entries = [(EdgeSource.dependency (aliasEdge l) none configuration, a)]) :
    k.valueOf b (.standsFor l) = .ok (.ofAlias k.label a.value) := by
  simp [TargetKey.valueOf, h, EdgeSource.dependency, aliasEdge]

/-- An alias that has a value in a configuration goes on to a target whose value it hands on. -/
theorem IsAlias.exists_hop {t : Target} (h : IsAlias t) (hst : Consistent (some services) st)
    (hservices : Installed services) (ht : TargetAt st k.label t) {c : ConfigurationKey}
    (hc : k.configuration = some c) {v : TargetValue}
    (hv : st.value? (.target k) = some (.ok v)) :
    ∃ k' w, Hop st k k' ∧ st.value? (.target k') = some (.ok w) ∧ HandsOn k.label v w := by
  obtain ⟨s, l, deps, hstood⟩ := h.stoodIn hst hservices ht hc hv
  obtain ⟨e, he, hlabel⟩ := hstood.actual
  obtain ⟨_, _, _, hconditions⟩ := hstood.conditions
  obtain ⟨_, _, _, hbundle, hnone⟩ := hstood.bundle
  have hcomes : e.ComesTo st ⟨c⟩ (.label l) := h.comesTo he hconditions hlabel
  obtain ⟨es, parts, hes, hbundles⟩ := EdgeSource.yields_bundle_expanded hst hbundle hnone
  obtain rfl := Except.ok.inj (hstood.edges.symm.trans hes)
  obtain ⟨configuration, u, a, hu, hentries, ha⟩ :=
    entries_of_aliasEdge hstood.configuration hbundles
  obtain ⟨w, hvalue, hv⟩ := hstood.value
  rw [valueOf_standsFor hentries] at hvalue
  obtain rfl := Except.ok.inj hvalue
  have hhandsOn : HandsOn k.label v a.value := by
    rw [hv]
    exact ⟨rfl, rfl, rfl, rfl, rfl⟩
  exact ⟨_, a.value, .mk hc ht h he hcomes hu, ha, hhandsOn⟩

/-- The target that an alias goes on to has a value if the alias has, which the alias hands on. -/
theorem Hop.handsOn (h : Hop st k k') (hst : Consistent (some services) st)
    (hservices : Installed services) {v : TargetValue}
    (hv : st.value? (.target k) = some (.ok v)) :
    ∃ w, st.value? (.target k') = some (.ok w) ∧ HandsOn k.label v w := by
  have hhop := h
  cases h with
  | mk configured target stands _ _ _ =>
  obtain ⟨k₁, w, hnext, hw, hsame⟩ := stands.exists_hop hst hservices target configured hv
  obtain rfl := hnext.unique hhop
  exact ⟨w, hw, hsame⟩

/-- Let an engine with the built-in rules begin with nothing and go through any history, after which
an alias has a value in a configuration. Let a chain of aliases, of any length, begin with it: each
goes on to the target of its attribute, as the attribute comes to where the alias is analyzed, in
the options of the alias trimmed for that target. Then the last target of the chain has a value
under the key it is requested with, and the value of the first alias has its label, configuration,
kind and providers, and the first alias as the one it was requested by. -/
theorem alias_chain_hands_on (hservices : Installed services) {start : AnalysisSession}
    (empty : start.store = {}) {history : List (Engine.Call analysisSpace)}
    (proper : ∀ call ∈ history, call.Proper (AnalysisKey.computation (some services)))
    {first last : TargetKey} {v : TargetValue}
    (analyzed : (start.after history).store.value? (.target first) = some (.ok v))
    (chain : Relation.TransGen (Hop (start.after history).store) first last) :
    ∃ w, (start.after history).store.value? (.target last) = some (.ok w) ∧
      HandsOn first.label v w := by
  have hst := consistent_after empty proper rfl
  induction chain using Relation.TransGen.head_induction_on generalizing v with
  | single hop => exact hop.handsOn hst hservices analyzed
  | head hop _ ih =>
      obtain ⟨u, hu, hfirst⟩ := hop.handsOn hst hservices analyzed
      obtain ⟨w, hw, hrest⟩ := ih hu
      exact ⟨w, hw, hfirst.trans hrest⟩

end BuiltinRules
end BuildAnalysis

/-! Two aliases in two packages, both of which choose by a setting that is met for the first only,
and a library that both of them stand for. -/

namespace BuildAnalysis.AliasChainSample

open BuiltinRules
open BuiltinRules.AliasSample (binLabel loading loading_proper optLabel optSettings optimized
  package standsForOpt start)
open FragmentsSample (fast gcc gccLabel libraries)
open ToolchainLoadingSample (compute compute_interrupts)

def firstLabel : Label := ⟨binLabel.package, ⟨"first", rfl, by decide⟩⟩

def secondLabel : Label := ⟨TrimmingSample.libLabel.package, ⟨"second", rfl, by decide⟩⟩

/-- The second alias if the setting is met, else the setting. -/
def firstActual : AttrExpr := .select [(optLabel, .label secondLabel)] (some (.label optLabel))

/-- The library unless the setting is met. -/
def secondActual : AttrExpr := .select [(optLabel, .label optLabel)] (some (.label gccLabel))

def first : Target :=
  { standsForOpt with label := firstLabel, values := [("actual", firstActual)] }

def second : Target :=
  { standsForOpt with label := secondLabel, values := [("actual", secondActual)] }

def firstPackage : Package where
  label := firstLabel.package
  targets := [first]
  owned := by decide
  distinct := by decide

def secondPackage : Package where
  label := secondLabel.package
  targets := [second]
  owned := by decide
  distinct := by decide

/-- Meets the setting and has an option that the library needs. -/
def mixed : Configuration := .ofOptions (optimized.options.setOption "jvm" "mode" "fast")

def firstKey : TargetKey := ⟨firstLabel, some mixed.key, none⟩

def history : List (Engine.Call analysisSpace) :=
  [loading [package, libraries, firstPackage, secondPackage],
    .compute compute {} true (.target firstKey)]

def session : AnalysisSession := Engine.Session.after start history

theorem history_proper : ∀ call ∈ history, call.Proper compute :=
  List.forall_mem_cons.mpr ⟨loading_proper _, List.forall_mem_singleton.mpr compute_interrupts⟩

theorem comesTo_of_recorded {c : Configuration} {b : Bool} {e : AttrExpr} {v : AttrValue}
    (hrecorded : (success? (session.store.value? (.target ⟨optLabel, some c.key, none⟩))).bind
      (fun v => v.providers.condition?) = some ⟨optLabel, optSettings, b⟩)
    (hkeys : e.keyOccurrences = [optLabel])
    (hv : Conditions.configure ⟨[(optLabel, ⟨optLabel, optSettings, b⟩)]⟩ (some c) e = .ok v) :
    e.ComesTo session.store c v := by
  obtain ⟨w, hw, hcondition⟩ := Option.bind_eq_some_iff.mp hrecorded
  refine ⟨⟨[(optLabel, ⟨optLabel, optSettings, b⟩)]⟩, fun key hkey => ?_, hv⟩
  rw [hkeys] at hkey
  obtain rfl := List.mem_singleton.mp hkey
  exact ⟨_, by simp [Conditions.get?, Listing.find?], w, success?_eq_some hw, hcondition⟩

def secondKey : TargetKey := ⟨secondLabel, some fast.key, none⟩

def gccKey : TargetKey := ⟨gccLabel, some fast.key, none⟩

/-- The second alias is requested without the option that only the setting looks at. -/
theorem requestedKey_second : requestedKey session.store mixed secondLabel second = secondKey := by
  decide +kernel

theorem requestedKey_gcc : requestedKey session.store fast gccLabel gcc = gccKey := by
  decide +kernel

theorem targetAt_second : TargetAt session.store secondLabel second :=
  ⟨secondPackage, success?_eq_some (by decide +kernel), rfl⟩

theorem hop_second : Hop session.store firstKey secondKey := by
  have hmet : firstActual.ComesTo session.store mixed (.label secondLabel) :=
    comesTo_of_recorded (b := true) (by decide +kernel) rfl (by decide +kernel)
  have hfirst : TargetAt session.store firstLabel first :=
    ⟨firstPackage, success?_eq_some (by decide +kernel), rfl⟩
  rw [← requestedKey_second]
  exact .mk rfl hfirst ⟨_, rfl, rfl⟩ rfl hmet targetAt_second

theorem hop_gcc : Hop session.store secondKey gccKey := by
  have hunmet : secondActual.ComesTo session.store fast (.label gccLabel) :=
    comesTo_of_recorded (b := false) (by decide +kernel) rfl (by decide +kernel)
  have hgcc : TargetAt session.store gccLabel gcc :=
    ⟨libraries, success?_eq_some (by decide +kernel), rfl⟩
  rw [← requestedKey_gcc]
  exact .mk rfl targetAt_second ⟨_, rfl, rfl⟩ rfl hunmet hgcc

theorem alias_chain_hands_on_gcc : ∃ v w,
    session.store.value? (.target firstKey) = some (.ok v) ∧
    session.store.value? (.target gccKey) = some (.ok w) ∧ HandsOn firstLabel v w ∧
    w.label = gccLabel ∧ w.configuration = some fast.key ∧ w.kind = .rule := by
  have hfirst : ∃ v, success? (session.store.value? (.target firstKey)) = some v :=
    Option.isSome_iff_exists.mp (by decide +kernel)
  have hlast : (success? (session.store.value? (.target gccKey))).map
      (fun w => (w.label, w.configuration, w.kind)) = some (gccLabel, some fast.key, .rule) := by
    decide +kernel
  obtain ⟨v, hv⟩ := hfirst
  obtain ⟨w, hw, hfields⟩ := Option.map_eq_some_iff.mp hlast
  obtain ⟨hlabel, hrest⟩ := Prod.mk.inj hfields
  obtain ⟨hconfiguration, hkind⟩ := Prod.mk.inj hrest
  obtain ⟨w', hw', hsame⟩ := alias_chain_hands_on ⟨rfl, rfl⟩ rfl history_proper
    (success?_eq_some hv) (.head hop_second (.single hop_gcc))
  obtain rfl := Except.ok.inj (Option.some.inj (hw'.symm.trans (success?_eq_some hw)))
  exact ⟨v, w', success?_eq_some hv, hw', hsame, hlabel, hconfiguration, hkind⟩

end BuildAnalysis.AliasChainSample
