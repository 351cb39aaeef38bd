import BuildAnalysis.Proofs.Analysis.Success

/-!
# How failures rank

A failure of a target ranks as the most important of its causes. What is raised for a batch of
dependencies has the causes of all that have failed, so it ranks as its causes do if each of them
does.
-/
namespace BuildAnalysis

open Engine (Store)

namespace TargetFailure

/-- The failure ranks as the most important of its causes. -/
def Ranked (t : TargetFailure) : Prop := t.detailedTag = t.causes.mostImportant

theorem worst_tag (fs : List TargetFailure) :
    (worst fs).tag = none ∨ ∃ f ∈ fs, (worst fs).tag = f.detailedTag := by
  have hfold : ∀ (fs : List TargetFailure) (w : Worst), (fs.foldl Worst.add w).tag = w.tag ∨
      ∃ f ∈ fs, (fs.foldl Worst.add w).tag = f.detailedTag := by
    intro fs
    induction fs with
    | nil => exact fun w => .inl rfl
    | cons f fs ih =>
        intro w
        rcases ih (w.add f) with h | ⟨g, hg, h⟩
        · refine (Tag.moreImportant?_eq_or w.tag f.detailedTag).imp (fun htag => ?_) fun htag => ?_
          · exact h.trans htag
          · exact ⟨f, List.mem_cons_self, h.trans htag⟩
        · exact .inr ⟨g, List.mem_cons_of_mem _ hg, h⟩
  exact hfold fs {}

end TargetFailure

/-- If a failure comes from a target, it ranks as the most important of its causes. -/
def Failure.Ranked (e : Failure) : Prop := ∀ t, e.targetFailure? = some t → t.Ranked

theorem Failure.Ranked.toTargetFailure {e : Failure} (h : e.Ranked) (label : Label)
    (configuration : Option ConfigurationKey) : (e.toTargetFailure label configuration).Ranked := by
  unfold Failure.toTargetFailure
  cases ht : e.targetFailure? with
  | none => rfl
  | some t => exact h t ht

/-- If the value of a key is a failure, it ranks as its causes do. -/
def RankedAt (st : Store analysisSpace) (k : AnalysisKey) : Prop :=
  ∀ e, FailedAt st k e → e.Ranked

variable {services : Option Services} {st : Store analysisSpace} {f f' : Findings}
  {ks : List AnalysisKey}

namespace Batch

variable {α : Type} {owner : Label} {configuration : Option ConfigurationKey}

/-- What is raised for failures that rank as their causes do has all causes and ranks as they do. -/
theorem raise?_eq_some {known : Causes} {rs : List (Resolved α)} {x : Abort}
    (hranked : ∀ t ∈ Resolved.failures rs, t.Ranked)
    (hknown : ∀ t ∈ Resolved.failures rs, ∀ c ∈ t.causes, c ∈ known)
    (h : raise? owner configuration known rs = some x) : ∃ message,
      x = .dependency (.ofCauses owner configuration message known) (Resolved.allReported rs) := by
  obtain ⟨f, _, rfl⟩ := Option.map_eq_some_iff.mp h
  have htag : Tag.moreImportant? known.mostImportant
      (TargetFailure.worst (Resolved.failures rs)).tag = known.mostImportant := by
    rcases TargetFailure.worst_tag (Resolved.failures rs) with hnone | ⟨t, ht, htag⟩
    · rw [hnone]
      exact Tag.moreImportant?_none _
    · rw [htag, hranked t ht]
      exact Causes.moreImportant?_mostImportant (hknown t ht)
  refine ⟨f.message, ?_⟩
  rw [htag]
  rfl

theorem not_lookedUp_error (hst : Consistent services st) {k : TargetKey} {v : TargetValue}
    (hv : st.value? (.target k) = some (.ok v)) {y : Failure} :
    ¬ LookedUp st v.label (.error y) := by
  intro hy
  obtain ⟨t, ht⟩ := TargetKey.targetAt_of_value? hst hv
  cases hy.unique (lookedUp_ok.mpr ht)

/-- The cached value of one of some dependencies is a failure, which is taken for one of the
dependency. -/
def FailureOf (st : Store analysisSpace) (deps : List Dependency) (t : TargetFailure) : Prop :=
  ∃ d ∈ deps, ∃ e, st.value? (.target d.key) = some (.error e) ∧
    t = e.toTargetFailure d.label d.configurationKey

/-- The first pass fails for exactly those dependencies whose cached values are failures. -/
theorem mem_failures_firstLook (hst : Consistent services st) {deps : List Dependency}
    {rs : List (Resolved PartialTarget)} (h : FirstPass st deps rs) {t : TargetFailure} :
    t ∈ Resolved.failures rs ↔ FailureOf st deps t := by
  constructor
  · intro ht
    obtain ⟨r, hr, hfailed⟩ := List.mem_filterMap.mp ht
    obtain ⟨d, hd, v, l, hv, hl, rfl⟩ := Engine.exists_of_mem_right h hr
    cases hlook : firstLook d v l with
    | found a =>
        rw [hlook] at hfailed
        cases hfailed
    | failed u _ =>
        rw [hlook] at hfailed
        obtain rfl := Option.some.inj hfailed
        rcases firstLook_eq_failed hlook with ⟨e, rfl, rfl⟩ | ⟨w, y, rfl, hpackage, hy, _⟩
        · exact ⟨d, hd, e, hv, rfl⟩
        · exact absurd ⟨l, hpackage ▸ hl, hy⟩ (not_lookedUp_error hst hv)
  · rintro ⟨d, hd, e, he, rfl⟩
    obtain ⟨r, hr, v, l, hv, _, rfl⟩ := Engine.exists_of_mem_left h hd
    obtain rfl := Option.some.inj (he.symm.trans hv)
    exact List.mem_filterMap.mpr ⟨_, hr, rfl⟩

/-- The second pass fails for no dependency if the targets of all values are there. -/
theorem failures_secondLook {packages : List (PackagePath × Except Failure Package)}
    {configurations : List (ConfigurationKey × Configuration)} {deps : List Dependency}
    {partials : List PartialTarget} (hthere : ∀ p ∈ partials, ∃ t, TargetAt st p.value.label t)
    (hpackages : ∀ p ∈ partials, LookedUpIn st packages p) :
    Resolved.failures ((deps.zip partials).map fun e =>
      secondLook packages configurations e.1 e.2) = [] := by
  refine List.filterMap_eq_nil_iff.mpr fun r hr => ?_
  obtain ⟨e, he, rfl⟩ := List.mem_map.mp hr
  have hmem := (List.of_mem_zip he).2
  cases hlook : secondLook packages configurations e.1 e.2 with
  | found _ => rfl
  | failed _ _ =>
      obtain ⟨hnone, _, y, hy⟩ := secondLook_eq_failed hlook
      obtain ⟨t, ht⟩ := hthere _ hmem
      have hlooked := hpackages _ hmem hnone
      rw [hy] at hlooked
      cases hlooked.unique (lookedUp_ok.mpr ht)

/-- A batch that cannot be resolved is raised for exactly those dependencies whose cached values are
failures, with all their causes. -/
theorem yields_resolve_error (hst : Consistent services st) {deps : List Dependency} {x : Abort}
    (h : Staged.Yields st f (resolve owner configuration deps) (.error x) f' ks) :
    ∃ rs : List (Resolved PartialTarget), raise? owner configuration f'.causes rs = some x ∧
      (∀ t, t ∈ Resolved.failures rs ↔ FailureOf st deps t) ∧
      (∀ t ∈ Resolved.failures rs, ∀ c ∈ t.causes, c ∈ f'.causes) ∧
      ∀ d ∈ deps, AnalysisKey.target d.key ∈ ks := by
  rcases yields_resolve h with ⟨_, hx, _⟩ | ⟨_, rs, _, hpass, hrequested, ⟨y, hx, _, hfirst⟩ |
    ⟨partials, _, _, _, hasked, ⟨_, hfirst⟩, _, hsecond⟩⟩
  · cases hx
  · obtain rfl := Except.error.inj hx
    obtain ⟨hraise, hcauses⟩ := yields_settle_error hfirst
    refine ⟨rs, hraise, fun t => mem_failures_firstLook hst hpass, fun t ht c hc => ?_, hrequested⟩
    rw [hcauses]
    exact mem_causes.mpr (.inr ⟨t, ht, hc⟩)
  · -- Nothing fails any more once every dependency has a value.
    rw [yields_settle_ok hfirst] at hpass
    have hthere : ∀ p ∈ partials, ∃ t, TargetAt st p.value.label t := fun p hp => by
      obtain ⟨_, _, hvalue, _⟩ := Engine.exists_of_mem_right hpass.looked hp
      exact TargetKey.targetAt_of_value? hst hvalue
    exact absurd (failures_secondLook hthere fun _ => hasked.lookedUpIn)
      (failures_ne_nil_of_raise? (yields_settle_error hsecond).1).1

end Batch

end BuildAnalysis
