import BuildAnalysis.Configuration.Settings
import BuildAnalysis.Proofs.Collection.Sorted

/-!
# Settings and trimmed options

Trimming keeps the options of the named fragments and all flags. So trimmed options meet settings
exactly if all options meet them and every fragment that the settings read is kept.
-/
namespace BuildAnalysis

theorem SortedMap.get?_filterKeys {α β : Type} [Ord α] [DecidableEq α] (m : SortedMap α β)
    (p : α → Bool) (k : α) : (m.filterKeys p).get? k = if p k then m.get? k else none := by
  change (m.entries.filter fun e => p e.1).lookup k = if p k then m.entries.lookup k else none
  induction m.entries with
  | nil => simp
  | cons e es ih =>
      obtain ⟨l, v⟩ := e
      by_cases hl : k = l
      · subst hl
        cases hp : p k <;> simp [hp, ih]
      · have hne : (k == l) = false := beq_false_of_ne hl
        cases hp : p l <;> simp [hp, ih, List.lookup_cons, hne]

namespace BuildOptions

variable {o : BuildOptions} {kept : SortedSet String}

theorem option?_trim (fragment option : String) :
    (o.trim kept).option? fragment option =
      if fragment ∈ kept then o.option? fragment option else none := by
  unfold option? trim
  rw [SortedMap.get?_filterKeys]
  by_cases h : fragment ∈ kept <;> simp [h]

theorem option?_setOption_self (fragment option value : String) :
    (o.setOption fragment option value).option? fragment option = some value := by
  simp [option?, setOption, SortedMap.get?_insert]

/-- Trimming keeps the options of a fragment, whatever they are, exactly if the fragment is kept. -/
theorem trim_keeps_iff {fragment : String} :
    (∀ (o : BuildOptions) (option : String),
      (o.trim kept).option? fragment option = o.option? fragment option) ↔ fragment ∈ kept := by
  constructor
  · refine fun h => Decidable.byContradiction fun hnot => ?_
    have hlost := h (({} : BuildOptions).setOption fragment "" "") ""
    rw [option?_trim, if_neg hnot, option?_setOption_self] at hlost
    cases hlost
  · intro h o option
    rw [option?_trim, if_pos h]

@[simp] theorem flag?_trim (flag : Label) : (o.trim kept).flag? flag = o.flag? flag := rfl

end BuildOptions

namespace Settings

variable {s : Settings} {o : BuildOptions} {kept : SortedSet String}

/-- The fragments that settings read. -/
def fragments (s : Settings) : List String :=
  s.values.entries.filterMap fun e => (BuildOptions.splitSetting? e.1).map Prod.fst

theorem setting?_trim_eq_some {name value : String} :
    (o.trim kept).setting? name = some value ↔
      o.setting? name = some value ∧
        ∀ p, BuildOptions.splitSetting? name = some p → p.1 ∈ kept := by
  unfold BuildOptions.setting?
  cases h : BuildOptions.splitSetting? name with
  | none => simp
  | some p =>
      simp only [Option.bind_some, BuildOptions.option?_trim, Option.some.injEq, forall_eq']
      by_cases hp : p.1 ∈ kept <;> simp [hp]

/-- Trimmed options meet settings that are met and whose fragments are all kept. -/
theorem isMet_trim : s.isMet (o.trim kept) = true ↔
    s.isMet o = true ∧ ∀ fragment ∈ s.fragments, fragment ∈ kept := by
  simp only [isMet, Bool.and_eq_true, List.all_eq_true, beq_iff_eq, setting?_trim_eq_some,
    BuildOptions.flag?_trim, Settings.fragments, List.mem_filterMap, Option.map_eq_some_iff]
  constructor
  · rintro ⟨hvalues, hflags⟩
    refine ⟨⟨fun e he => (hvalues e he).1, hflags⟩, ?_⟩
    rintro fragment ⟨e, he, p, hp, rfl⟩
    exact (hvalues e he).2 p hp
  · rintro ⟨⟨hvalues, hflags⟩, hfragments⟩
    exact ⟨fun e he => ⟨hvalues e he, fun p hp => hfragments p.1 ⟨e, he, p, hp, rfl⟩⟩, hflags⟩

theorem values_eq_empty (h : s.isMet o = true) (hnone : s.fragments = []) : s.values = ∅ := by
  have hentries : s.values.entries = [] := by
    refine List.eq_nil_iff_forall_not_mem.mpr fun e he => ?_
    simp only [isMet, Bool.and_eq_true, List.all_eq_true, beq_iff_eq] at h
    have hvalue := h.1 e he
    have hsplit := List.filterMap_eq_nil_iff.mp hnone e he
    rw [Option.map_eq_none_iff] at hsplit
    rw [BuildOptions.setting?, hsplit] at hvalue
    cases hvalue
  obtain ⟨⟨entries, sorted⟩, flags⟩ := s
  subst hentries
  rfl

end Settings
end BuildAnalysis
