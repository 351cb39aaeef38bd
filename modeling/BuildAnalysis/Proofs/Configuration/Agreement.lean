import BuildAnalysis.Configuration.Transition
import BuildAnalysis.Proofs.Collection.Listing
import BuildAnalysis.Proofs.Configuration.Trim

/-!
# Options that agree on fragments

Options agree on some fragments if they have the same options there, the same flags and the same
platform options. Transitions look at nothing of the options that they are applied to, so options
that agree are led to options that agree; and trimming to more than the fragments in question makes
no difference to them.
-/
namespace BuildAnalysis

namespace BuildOptions

variable {needed kept : SortedSet String} {o u : BuildOptions}

structure AgreeOn (needed : SortedSet String) (o u : BuildOptions) : Prop where
  fragments : ∀ f ∈ needed, o.fragments.get? f = u.fragments.get? f
  featureFlags : o.featureFlags = u.featureFlags
  platform : o.platform = u.platform

namespace AgreeOn

theorem refl (needed : SortedSet String) (o : BuildOptions) : AgreeOn needed o o :=
  ⟨fun _ _ => rfl, rfl, rfl⟩

theorem option? (h : AgreeOn needed o u) {f : String} (hf : f ∈ needed) (option : String) :
    o.option? f option = u.option? f option := by
  rw [BuildOptions.option?, BuildOptions.option?, h.fragments f hf]

theorem clearFlags (h : AgreeOn needed o u) : AgreeOn needed o.clearFlags u.clearFlags :=
  ⟨h.fragments, rfl, h.platform⟩

theorem setTargetPlatform (h : AgreeOn needed o u) (platform : Option Label) :
    AgreeOn needed (o.setTargetPlatform platform) (u.setTargetPlatform platform) where
  fragments := h.fragments
  featureFlags := h.featureFlags
  platform := by rw [BuildOptions.setTargetPlatform, BuildOptions.setTargetPlatform, h.platform]

theorem setOption (h : AgreeOn needed o u) (fragment option value : String) :
    AgreeOn needed (o.setOption fragment option value) (u.setOption fragment option value) where
  fragments f hf := by
    rw [BuildOptions.setOption, BuildOptions.setOption, SortedMap.get?_insert,
      SortedMap.get?_insert]
    by_cases hfragment : f = fragment
    · subst hfragment
      rw [h.fragments f hf]
    · rw [if_neg hfragment, if_neg hfragment, h.fragments f hf]
  featureFlags := h.featureFlags
  platform := h.platform

theorem trim (h : AgreeOn needed o u) (hkept : ∀ f ∈ needed, f ∈ kept) :
    AgreeOn needed (o.trim kept) u where
  fragments f hf := by
    rw [BuildOptions.trim, SortedMap.get?_filterKeys, if_pos (by simpa using hkept f hf),
      h.fragments f hf]
  featureFlags := h.featureFlags
  platform := h.platform

end AgreeOn
end BuildOptions

namespace Transition

variable {needed : SortedSet String} {o o' u : BuildOptions}

/-- The options that a transition leads to: the patched ones, or those of one split key. -/
def leadsTo? (t : Transition) (key : Option String) (o : BuildOptions) : Option BuildOptions :=
  match t.apply o, key with
  | .ok (.patched u), none => some u
  | .ok (.split us), some k => Listing.find? k us
  | _, _ => none

theorem leadsTo?_of_patched {t : Transition} (h : t.apply o = .ok (.patched u)) :
    t.leadsTo? none o = some u := by
  unfold leadsTo?
  simp only [h]

theorem leadsTo?_split (fragment option : String) (values : List String) (k : String)
    (o : BuildOptions) : (split fragment option values).leadsTo? (some k) o =
      if k ∈ values then some (o.setOption fragment option k) else none :=
  Listing.find?_ofEntries_map (o.setOption fragment option) k values

theorem leadsTo?_of_split {t : Transition} {us : List (String × BuildOptions)} {k : String}
    (h : t.apply o = .ok (.split us)) (hu : (k, u) ∈ us) : t.leadsTo? (some k) o = some u := by
  cases t with
  | split fragment option values =>
      obtain rfl := Outcome.split.inj (Except.ok.inj h)
      obtain ⟨v, hv, heq⟩ := List.mem_map.mp (Listing.mem_ofEntries hu)
      obtain ⟨rfl, rfl⟩ := Prod.mk.inj heq
      rw [leadsTo?_split, if_pos hv]
  | _ => cases h

/-- Options that agree are patched to options that agree. -/
theorem patched_agree {t : Transition} (h : t.apply o = .ok (.patched o'))
    (agree : o.AgreeOn needed u) :
    ∃ u', t.apply u = .ok (.patched u') ∧ o'.AgreeOn needed u' := by
  cases t with
  | keep =>
      cases h
      exact ⟨u, rfl, agree⟩
  | dropFlags =>
      cases h
      exact ⟨_, rfl, agree.clearFlags⟩
  | patch fragment option value =>
      cases h
      exact ⟨_, rfl, agree.setOption fragment option value⟩
  | execution platform =>
      cases h
      exact ⟨_, rfl, agree.clearFlags.setTargetPlatform (some platform)⟩
  | drop => cases h
  | split => cases h
  | failing => cases h

theorem leadsTo?_agree {t : Transition} {key : Option String}
    (h : t.leadsTo? key o = some o') (agree : o.AgreeOn needed u) :
    ∃ u', t.leadsTo? key u = some u' ∧ o'.AgreeOn needed u' := by
  unfold leadsTo? at h
  split at h
  next o₁ hpatched =>
    obtain rfl := Option.some.inj h
    obtain ⟨u', hu', agree'⟩ := patched_agree hpatched agree
    exact ⟨u', leadsTo?_of_patched hu', agree'⟩
  next us k hsplit =>
    have hmem : (k, o') ∈ us := Listing.mem_of_find? h
    have hleads : t.leadsTo? (some k) o = some o' := leadsTo?_of_split hsplit hmem
    cases t with
    | split fragment option values =>
        rw [leadsTo?_split] at hleads
        split at hleads
        next hk =>
          obtain rfl := Option.some.inj hleads
          refine ⟨_, ?_, agree.setOption fragment option k⟩
          rw [leadsTo?_split, if_pos hk]
        next => cases hleads
    | _ => cases hsplit
  next => cases h

/-- Options led through transitions, one after the other, each with the split key that is followed
if it splits. -/
def follow? (o : BuildOptions) : List (Transition × Option String) → Option BuildOptions
  | [] => some o
  | hop :: hops => (hop.1.leadsTo? hop.2 o).bind fun u => follow? u hops

end Transition
end BuildAnalysis
