import BuildAnalysis.Proofs.Analysis.Trimming
import BuildAnalysis.Proofs.Attribute.Consultation

/-!
# Select keys that are resolved

The conditions of a target are resolved before its attributes are configured. They are the select
keys of all its attributes, so no attribute fails because a condition that it consults is not among
them.
-/
namespace BuildAnalysis

namespace Conditions

def unresolved (key : Label) : Failure := .internal s!"`select()` key `{key}` was not resolved"

theorem matching_eq_error {c : Conditions} {cfg : Configuration} {key : Label} {f : Failure}
    (h : (c.context cfg).matching key = .error f) : c.get? key = none := by
  cases hget : c.get? key with
  | none => rfl
  | some m =>
      simp only [context, hget] at h
      cases h

/-- A choice or concatenation without items is a broken invariant too, but the text differs. -/
theorem head?_unresolved (key : Label) :
    (unresolved key).description.toList.head? ≠ SelectError.emptyConcat.message.toList.head? := by
  change ("`select()` key `" ++ toString key ++ "` was not resolved" ++
    " (internal error)").toList.head? ≠ _
  simp only [String.toList_append]
  intro h
  cases h

theorem choice_ne_unresolved (e : SelectError) (key : Label) : e.toFailure ≠ unresolved key := by
  intro h
  have htag : e.tag = .internalError := congrArg (fun f => f.root.tag) h
  cases e with
  | emptyConcat => exact head?_unresolved key (h ▸ rfl)
  | _ => cases htag

theorem concat_ne_unresolved (e : AttrValue.ConcatError) (key : Label) :
    e.toFailure ≠ unresolved key := by
  intro h
  have htag : Tag.input = .internalError := congrArg (fun f => f.root.tag) h
  cases htag

theorem configure_ne_unresolved {c : Conditions} {configuration : Option Configuration}
    {e : AttrExpr} (h : configuration.isSome → ∀ l ∈ e.keyOccurrences, ∃ m, c.get? l = some m)
    (key : Label) : c.configure configuration e ≠ .error (unresolved key) := by
  intro hfails
  unfold configure at hfails
  split at hfails
  next cfg =>
    generalize hf : unresolved key = f at hfails
    cases e.configure_eq_error hfails with
    | choice fault => exact choice_ne_unresolved fault key hf.symm
    | concat fault => exact concat_ne_unresolved fault key hf.symm
    | unknown hl hunknown =>
        obtain ⟨m, hm⟩ := h rfl _ hl
        rw [matching_eq_error hunknown] at hm
        cases hm
  next =>
    split at hfails
    next => cases hfails
    next =>
      have htag : Tag.configCondition = .internalError :=
        congrArg (fun f => f.root.tag) (Except.error.inj hfails)
      cases htag

end Conditions

/-- The select keys of an expression are the conditions of the choices written anywhere in it, each
once, and all that configuring consults: in two contexts of one configuration that answer alike
about them it comes to the same value or failure. So once the conditions of a target are resolved,
in whatever engine, no attribute of the target fails for a condition that was not. -/
theorem selectKeys_suffice :
    (∀ e : AttrExpr, (e.selectKeys []).Nodup ∧
      (∀ l, l ∈ e.selectKeys [] ↔ ∃ x ∈ e.parts, x.Asks l) ∧
      ∀ ctx ctx' : ConditionContext, ctx.configuration = ctx'.configuration →
        (∀ l ∈ e.selectKeys [], ctx.matching l = ctx'.matching l) →
        e.configure ctx = e.configure ctx') ∧
    ∀ (t : Target) (configuration : Option Configuration) (conditions : Conditions)
      (nest : Engine.Nest analysisSpace) (s : AnalysisSession) (f f' : Findings),
      (((Conditions.ofTarget t configuration).runFrom f).run.run nest { session := s }).1 =
        .ok (.ok conditions, f') →
      ∀ a ∈ t.attributes, ∀ key,
        conditions.configure configuration a.2 ≠ .error (Conditions.unresolved key) := by
  have hkeys : ∀ (e : AttrExpr) (l : Label), l ∈ e.selectKeys [] ↔ l ∈ e.keyOccurrences :=
    fun e l => Listing.mem_addAll.trans (or_iff_right List.not_mem_nil)
  constructor
  · intro e
    refine ⟨Listing.nodup_addAll .nil _, ?_, ?_⟩
    · exact fun l => (hkeys e l).trans e.mem_keyOccurrences_iff
    · intro ctx ctx' hconfiguration hmatching
      exact e.configure_congr ⟨hconfiguration, fun l hl => hmatching l ((hkeys e l).mpr hl)⟩
  · intro t configuration conditions nest s f f' succeeds a ha key
    apply Conditions.configure_ne_unresolved
    intro hsome l hl
    obtain ⟨c, rfl⟩ := Option.isSome_iff_exists.mp hsome
    obtain ⟨_, es, hyields⟩ :=
      Engine.Demand.yields_of_run (Conditions.ofTarget_lawful t (some c) f) succeeds
    obtain ⟨m, hm, -⟩ :=
      Conditions.yields_ofTarget_ok ⟨es, hyields⟩ (Target.mem_selectKeys ha hl)
    exact ⟨m, hm⟩

namespace SelectKeysSample

open BuiltinRules.AliasSample

def modes : AttrExpr :=
  .dict [(.text "mode", .select [(aliasLabel, .text "chosen")] (some (.text "fallback")))]

def context : ConditionContext := .ofSettings optimized [(aliasLabel, optSettings)]

def widerContext : ConditionContext :=
  .ofSettings optimized [(binLabel, {}), (aliasLabel, optSettings)]

theorem agree_modes : ∀ l ∈ modes.selectKeys [], context.matching l = widerContext.matching l := by
  intro l hl
  obtain rfl : l = aliasLabel := List.mem_singleton.mp hl
  rfl

/-- Two contexts in which the choice comes to the same, and a target that chooses by an alias. -/
theorem selectKeys_suffice_alias :
    context.matching binLabel ≠ widerContext.matching binLabel ∧
      modes.configure context = modes.configure widerContext ∧
      ∃ conditions f, resolved = .ok (.ok conditions, f) ∧
        ∀ a ∈ bin.attributes, ∀ key,
          conditions.configure (some optimized) a.2 ≠ .error (Conditions.unresolved key) := by
  obtain ⟨conditions, f, hrun, -⟩ := resolved_eq_ok
  refine ⟨(fun h => nomatch h), ?_, conditions, f, hrun, ?_⟩
  · exact (selectKeys_suffice.1 modes).2.2 context widerContext rfl agree_modes
  · exact selectKeys_suffice.2 bin (some optimized) conditions _ _ _ f hrun

end SelectKeysSample
end BuildAnalysis
