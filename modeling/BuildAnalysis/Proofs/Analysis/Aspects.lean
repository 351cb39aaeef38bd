import BuildAnalysis.Proofs.Analysis.Batch
import BuildAnalysis.Proofs.Analysis.Merging
import BuildAnalysis.Proofs.Attribute.Extension

/-!
# Aspects of dependencies

The aspects of the edges of a target are applied to the values of its dependencies. If all of them
have values, they only add providers. If one of them has failed, the failure of the first such is
handed up, unless an aspect repeats a provider.
-/
namespace BuildAnalysis.EdgeSource

open Engine (Store)

variable {st : Store analysisSpace} {f f' : Findings} {ks : List AnalysisKey} {s : EdgeSource}

/-- The aspects that are applied to the values of dependencies, in order. -/
def aspectKeys (deps : List Dependency) (values : List AnalyzedTarget) : List AspectKey :=
  (deps.zip values).flatMap fun e => AspectKey.ofDependency e.1 e.2

def AspectAt (st : Store analysisSpace) (a : AspectKey) (v : AspectValue) : Prop :=
  st.value? (.aspect a) = some (.ok v)

/-- The first of some aspects whose cached value is a failure, and that failure. -/
def FirstFailed (st : Store analysisSpace) (keys : List AspectKey) (t : TargetFailure) : Prop :=
  ∃ before a after e, keys = before ++ a :: after ∧ (∀ b ∈ before, ∃ v, AspectAt st b v) ∧
    st.value? (.aspect a) = some (.error e) ∧
      t = e.toTargetFailure a.base.label a.base.configuration

/-- An aspect provides something that is there already. -/
def Repeats (st : Store analysisSpace) (keys : List AspectKey) (a : AspectKey)
    (e : RepeatedProvider) : Prop :=
  a ∈ keys ∧ ∃ v t, AspectAt st a v ∧ AnalyzedTarget.withProviders t v.providers = .error e

section Results

variable {keys : List AspectKey} {results : List (Except Failure AspectValue)}

theorem forall_aspectAt_of_aspectFailures
    (h : st.Reads (S := analysisSpace) AnalysisKey.aspect (fun _ r => r) keys results)
    (hnone : aspectFailures (keys.zip results) = []) : ∀ a ∈ keys, ∃ v, AspectAt st a v := by
  induction h with
  | nil => exact fun a ha => by cases ha
  | @cons a r keys results hv _ ih =>
      obtain ⟨v, hv, rfl⟩ := hv
      cases r with
      | error e => cases hnone
      | ok v => exact List.forall_mem_cons.mpr ⟨⟨v, hv⟩, ih hnone⟩

theorem firstFailed_of_aspectFailures
    (h : st.Reads (S := analysisSpace) AnalysisKey.aspect (fun _ r => r) keys results)
    {t : TargetFailure} {ts : List TargetFailure}
    (hfailures : aspectFailures (keys.zip results) = t :: ts) : FirstFailed st keys t := by
  induction h with
  | nil => cases hfailures
  | @cons a r keys results hv _ ih =>
      obtain ⟨v, hv, rfl⟩ := hv
      cases r with
      | error e =>
          obtain ⟨rfl, _⟩ := List.cons.inj hfailures
          exact ⟨[], a, keys, e, rfl, fun b hb => absurd hb List.not_mem_nil, hv, rfl⟩
      | ok v =>
          obtain ⟨before, b, after, e, rfl, hbefore, he, rfl⟩ := ih hfailures
          exact ⟨a :: before, b, after, e, rfl, List.forall_mem_cons.mpr ⟨⟨v, hv⟩, hbefore⟩, he,
            rfl⟩

theorem value?_of_mem_zip {more : List AspectKey}
    (h : st.Reads (S := analysisSpace) AnalysisKey.aspect (fun _ r => r) (keys ++ more) results) :
    ∀ p ∈ keys.zip results, p.1 ∈ keys ∧ st.value? (.aspect p.1) = some p.2 := by
  induction keys generalizing results with
  | nil => exact fun p hp => by cases hp
  | cons a keys ih =>
      cases h with
      | cons hv h =>
        obtain ⟨v, hv, rfl⟩ := hv
        refine List.forall_mem_cons.mpr ⟨⟨List.mem_cons_self, hv⟩, fun p hp => ?_⟩
        obtain ⟨hmem, hvalue⟩ := ih h p hp
        exact ⟨List.mem_cons_of_mem _ hmem, hvalue⟩

theorem dealOut_reads {wanted : List (AnalyzedTarget × List AspectKey)}
    (h : st.Reads (S := analysisSpace) AnalysisKey.aspect (fun _ r => r)
      (wanted.flatMap Prod.snd) results) :
    ∀ e ∈ dealOut wanted results, (∃ w ∈ wanted, w.1 = e.1) ∧
      ∀ p ∈ e.2, p.1 ∈ wanted.flatMap Prod.snd ∧ st.value? (.aspect p.1) = some p.2 := by
  -- The results begin with those of the first dependency; the rest belongs to the others.
  induction wanted generalizing results with
  | nil => exact fun e he => by cases he
  | cons w wanted ih =>
      obtain ⟨t, own⟩ := w
      rw [List.flatMap_cons] at h ⊢
      have hrest := List.forall₂_drop own.length h
      rw [List.drop_left] at hrest
      refine List.forall_mem_cons.mpr ⟨⟨⟨_, List.mem_cons_self, rfl⟩, fun p hp => ?_⟩,
        fun e he => ?_⟩
      · obtain ⟨hmem, hvalue⟩ := value?_of_mem_zip h p hp
        exact ⟨List.mem_append_left _ hmem, hvalue⟩
      · obtain ⟨⟨w, hw, heq⟩, hpairs⟩ := ih hrest e he
        exact ⟨⟨w, List.mem_cons_of_mem _ hw, heq⟩,
          fun p hp => ⟨List.mem_append_right _ (hpairs p hp).1, (hpairs p hp).2⟩⟩

end Results

theorem addProviders_eq_ok {t t' : AnalyzedTarget}
    {rs : List (AspectKey × Except Failure AspectValue)} (h : s.addProviders t rs = .ok t') :
    t'.label = t.label ∧ t'.target = t.target := by
  obtain ⟨_, _, rfl⟩ := addProviders_eq_ok_iff.mp h
  exact ⟨rfl, rfl⟩

theorem addProviders_eq_error {t : AnalyzedTarget}
    {rs : List (AspectKey × Except Failure AspectValue)} {x : Abort}
    (h : s.addProviders t rs = .error x) :
    ∃ p ∈ rs, ∃ v t' e, p.2 = .ok v ∧ AnalyzedTarget.withProviders t' v.providers = .error e ∧
      x = s.repeatedProvider p.1 e := by
  induction rs generalizing t with
  | nil => cases h
  | cons p rs ih =>
      obtain ⟨k, r⟩ := p
      cases r with
      | error e =>
          obtain ⟨p, hp, hclash⟩ := ih h
          exact ⟨p, List.mem_cons_of_mem _ hp, hclash⟩
      | ok v =>
          simp only [addProviders] at h
          split at h
          next e he =>
            obtain rfl := Except.error.inj h
            exact ⟨_, List.mem_cons_self, v, t, e, rfl, he, rfl⟩
          next =>
            obtain ⟨p, hp, hclash⟩ := ih h
            exact ⟨p, List.mem_cons_of_mem _ hp, hclash⟩

section Merged

variable {wanted : List (AnalyzedTarget × List AspectKey)}
  {results : List (Except Failure AspectValue)}
  (hresults : st.Reads (S := analysisSpace) AnalysisKey.aspect (fun _ r => r)
    (wanted.flatMap Prod.snd) results)
include hresults

theorem merged_eq_ok {merged : List AnalyzedTarget}
    (h : sequence ((dealOut wanted results).map fun e => s.addProviders e.1 e.2) = .ok merged) :
    ∀ v' ∈ merged, ∃ w ∈ wanted, v'.label = w.1.label ∧ v'.target = w.1.target := by
  intro v' hv'
  obtain ⟨r, hr, rfl⟩ := Engine.exists_of_mem_right (sequence_eq_ok h) hv'
  obtain ⟨e, he, hadd⟩ := List.mem_map.mp hr
  obtain ⟨⟨w, hw, hwe⟩, _⟩ := dealOut_reads hresults e he
  exact ⟨w, hw, hwe ▸ addProviders_eq_ok hadd⟩

theorem merged_eq_error {x : Abort}
    (h : sequence ((dealOut wanted results).map fun e => s.addProviders e.1 e.2) = .error x) :
    ∃ a e, x = s.repeatedProvider a e ∧ Repeats st (wanted.flatMap Prod.snd) a e := by
  obtain ⟨e, he, hadd⟩ := List.mem_map.mp (mem_of_sequence_eq_error h)
  obtain ⟨p, hp, v, t, repeated, hv, hclash, rfl⟩ := addProviders_eq_error hadd
  obtain ⟨hmem, hvalue⟩ := (dealOut_reads hresults e he).2 p hp
  exact ⟨p.1, repeated, rfl, hmem, v, t, hvalue.trans (congrArg some hv), hclash⟩

end Merged

/-- What applying the aspects of dependencies comes to. Findings are added only if an aspect has
failed. -/
theorem yields_applyAspects {deps : List Dependency} {values : List AnalyzedTarget}
    {r : Except Abort (List AnalyzedTarget)}
    (h : Staged.Yields st f (s.applyAspects deps values) r f' ks) :
    (∃ values', r = .ok values' ∧ f' = f ∧
      (∀ a ∈ aspectKeys deps values, ∃ v, AspectAt st a v) ∧
      ∀ v' ∈ values', ∃ v ∈ values, v'.label = v.label ∧ v'.target = v.target) ∨
    (∃ t, r = .error (.aspect t) ∧ FirstFailed st (aspectKeys deps values) t ∧
      ∀ a ∈ aspectKeys deps values, AnalysisKey.aspect a ∈ ks) ∨
    ∃ a e, r = .error (s.repeatedProvider a e) ∧ Repeats st (aspectKeys deps values) a e := by
  unfold applyAspects at h
  have hkeys : (((deps.zip values).map fun e => (e.2, AspectKey.ofDependency e.1 e.2)).flatMap
      Prod.snd) = aspectKeys deps values := by
    rw [List.flatMap_map]
    rfl
  have hwanted : ∀ w ∈ (deps.zip values).map fun e => (e.2, AspectKey.ofDependency e.1 e.2),
      w.1 ∈ values := fun w hw => by
    obtain ⟨e, he, rfl⟩ := List.mem_map.mp hw
    exact (List.of_mem_zip he).2
  rw [← hkeys]
  generalize (deps.zip values).map (fun e => (e.2, AspectKey.ofDependency e.1 e.2)) = wanted
    at h hwanted
  dsimp only at h
  split at h
  next hempty =>
    obtain ⟨rfl, rfl, _⟩ := h.of_pure
    refine .inl ⟨values, rfl, rfl, fun a ha => ?_, fun v hv => ⟨v, hv, rfl, rfl⟩⟩
    rw [List.isEmpty_iff.mp hempty] at ha
    cases ha
  obtain ⟨results, _, _, _, hrequest, h, hall⟩ := Staged.Yields.of_request_bind h
  obtain ⟨hrequested, hresults⟩ := Engine.Demand.Yields.of_values hrequest
  have h := Staged.Yields.of_modify_bind h
  rcases h.of_bind with ⟨merged, f₁, _, _, hmerged, hlast, _⟩ | ⟨x, hmerged, rfl⟩
  · obtain ⟨hsequence, rfl, _⟩ := Staged.Yields.of_ofExcept hmerged
    split at hlast
    next t ts hfailures =>
      obtain ⟨rfl, rfl, _⟩ := hlast.of_throw
      refine .inr (.inl ⟨t, rfl, firstFailed_of_aspectFailures hresults hfailures, fun a ha => ?_⟩)
      rw [hall, hrequested]
      exact List.mem_append_left _ (List.mem_map_of_mem ha)
    next hnone =>
      obtain ⟨rfl, rfl, _⟩ := hlast.of_pure
      refine .inl ⟨merged, rfl, by rw [hnone]; rfl,
        forall_aspectAt_of_aspectFailures hresults hnone, fun v' hv' => ?_⟩
      obtain ⟨w, hw, hsame⟩ := merged_eq_ok hresults hsequence.symm v' hv'
      exact ⟨w.1, hwanted w hw, hsame⟩
  · obtain ⟨hsequence, _, _⟩ := Staged.Yields.of_ofExcept hmerged
    obtain ⟨a, e, rfl, hrepeats⟩ := merged_eq_error hresults hsequence.symm
    exact .inr (.inr ⟨a, e, rfl, hrepeats⟩)

end BuildAnalysis.EdgeSource
