import BuildAnalysis.Proofs.Attribute.Choice

/-!
# The branch that wins

Whatever the branches are and whether or not their conditions are known, a choice that comes out
with a branch has taken one that matches and whose settings expect all that the settings of every
other matching branch expect, and more. It comes out without a branch only if none matches, and an
ambiguity is reported for two matching branches neither of which goes beyond the other. The walk
keeps one candidate only; that it goes beyond all earlier ones is the invariant.
-/
namespace BuildAnalysis

open Candidate

variable {α : Type}

namespace Candidate

theorem comparable_iff_exceeds {c d : Candidate α} :
    c.Comparable d ↔ c.settings.Exceeds d.settings ∨ d.settings.Exceeds c.settings :=
  or_congr Settings.refines_iff_exceeds Settings.refines_iff_exceeds

end Candidate

namespace ConditionContext

variable {ctx : ConditionContext} {branches : List (Label × α)}

inductive Chosen (ctx : ConditionContext) (branches : List (Label × α)) :
    Except Failure (Option α) → Prop
  | unmatched (none_matches : ∀ b ∈ branches, ctx.matching b.1 = .ok none) :
      Chosen ctx branches (.ok none)
  | winner {before after : List (Label × α)} {key : Label} {value : α} {s : Settings}
      (split : branches = before ++ (key, value) :: after)
      (matching : ctx.matching key = .ok (some s))
      (beats : ∀ b ∈ before ++ after, ∀ t, ctx.matching b.1 = .ok (some t) → s.Exceeds t) :
      Chosen ctx branches (.ok (some value))
  | ambiguous {first second : Label × α} {s t : Settings}
      (both : [first, second].Sublist branches)
      (matching_first : ctx.matching first.1 = .ok (some s))
      (matching_second : ctx.matching second.1 = .ok (some t))
      (not_beaten : ¬ s.Exceeds t) (not_beats : ¬ t.Exceeds s) :
      Chosen ctx branches (.error (SelectError.ambiguous first.1 second.1).toFailure)
  /-- The context does not know a condition, and says why. -/
  | unknown {b : Label × α} {e : Failure} (mem : b ∈ branches)
      (reason : ctx.matching b.1 = .error e) : Chosen ctx branches (.error e)

theorem candidate?_eq_some {b : Label × α} {c : Candidate α} (h : ctx.candidate? b = some c) :
    ctx.matching b.1 = .ok (some c.settings) ∧ c.key = b.1 ∧ c.value = b.2 := by
  unfold candidate? at h
  split at h
  next s hs =>
    obtain rfl := Option.some.inj h
    exact ⟨hs, rfl, rfl⟩
  next => cases h

theorem candidate?_of_matching {b : Label × α} {s : Settings}
    (h : ctx.matching b.1 = .ok (some s)) : ctx.candidate? b = some ⟨b.1, s, b.2⟩ := by
  rw [candidate?, h]

theorem matching_eq_none {b : Label × α} (hresolves : ctx.Resolves branches) (hb : b ∈ branches)
    (h : ctx.candidate? b = none) : ctx.matching b.1 = .ok none := by
  obtain ⟨found, hfound⟩ := hresolves b hb
  cases found with
  | none => exact hfound
  | some s => rw [candidate?_of_matching hfound] at h; cases h

/-- The most specific candidate stands for one of the branches and beats all others. -/
theorem chosen_of_mostSpecific {c : Candidate α}
    (h : MostSpecific (ctx.candidates branches) c) : Chosen ctx branches (.ok (some c.value)) := by
  obtain ⟨b, hb, hbc⟩ := List.mem_filterMap.mp h.mem
  obtain ⟨before, after, rfl⟩ := List.append_of_mem hb
  obtain ⟨hmatching, -, hvalue⟩ := candidate?_eq_some hbc
  have hcs : (ctx.candidates (before ++ b :: after)).Perm
      (c :: ctx.candidates (before ++ after)) := by
    simp only [candidates, List.filterMap_append, List.filterMap_cons, hbc]
    exact List.perm_middle
  rw [hvalue]
  refine .winner rfl hmatching fun d hd t ht => ?_
  have hmem : ⟨d.1, t, d.2⟩ ∈ ctx.candidates (before ++ after) :=
    List.mem_filterMap.mpr ⟨d, hd, candidate?_of_matching ht⟩
  exact Settings.refines_iff_exceeds.mp (h.refines_rest hcs _ hmem)

theorem chosen_of_not_comparable {before after : List (Candidate α)} {c d : Candidate α}
    (hcs : ctx.candidates branches = before ++ d :: after) (hc : c ∈ before)
    (hcd : ¬ c.Comparable d) :
    Chosen ctx branches (.error (SelectError.ambiguous c.key d.key).toFailure) := by
  obtain ⟨bs, bs', rfl, hbefore, hrest⟩ := List.filterMap_eq_append_iff.mp hcs
  obtain ⟨skipped, second, rest, rfl, -, hsecond, -⟩ := List.filterMap_eq_cons_iff.mp hrest
  rw [← hbefore] at hc
  obtain ⟨first, hmem, hfirst⟩ := List.mem_filterMap.mp hc
  have hboth : [first, second].Sublist (bs ++ (skipped ++ second :: rest)) :=
    (List.singleton_sublist.mpr hmem).append
      (List.singleton_sublist.mpr (List.mem_append_right skipped List.mem_cons_self))
  obtain ⟨hmatching, hkey, -⟩ := candidate?_eq_some hfirst
  obtain ⟨hmatching', hkey', -⟩ := candidate?_eq_some hsecond
  obtain ⟨hst, hts⟩ := not_or.mp (comparable_iff_exceeds.not.mp hcd)
  rw [hkey, hkey']
  exact .ambiguous hboth hmatching hmatching' hst hts

theorem chosen_of_resolves (h : ctx.Resolves branches) :
    Chosen ctx branches (ctx.mostSpecific branches) := by
  rcases foldlM_better (.none rfl) (ctx.candidates branches) with
    ⟨last, hlast, hbest⟩ | ⟨before, d, after, c, hcs, hc, hcd, hlast⟩
  · rw [mostSpecific, foldlM_prefer h, hlast]
    rw [List.nil_append] at hbest
    cases hbest with
    | none hnil =>
        refine .unmatched fun b hb => matching_eq_none h hb ?_
        exact List.filterMap_eq_nil_iff.mp hnil b hb
    | some hc => exact chosen_of_mostSpecific hc
  · rw [mostSpecific, foldlM_prefer h, hlast]
    rw [List.nil_append] at hc
    exact chosen_of_not_comparable hcs hc.mem hcd

theorem resolves_or_unknown (ctx : ConditionContext) (branches : List (Label × α)) :
    ctx.Resolves branches ∨ ∃ known b rest e, branches = known ++ b :: rest ∧
      ctx.Resolves known ∧ ctx.matching b.1 = .error e := by
  induction branches with
  | nil => exact .inl fun b hb => absurd hb List.not_mem_nil
  | cons b bs ih =>
      cases hb : ctx.matching b.1 with
      | error e => exact .inr ⟨[], b, bs, e, rfl, fun _ h => absurd h List.not_mem_nil, hb⟩
      | ok found =>
          have hcons : ∀ {known : List (Label × α)}, ctx.Resolves known →
              ctx.Resolves (b :: known) := fun h => List.forall_mem_cons.mpr ⟨⟨found, hb⟩, h⟩
          rcases ih with h | ⟨known, d, rest, e, rfl, hknown, hd⟩
          · exact .inl (hcons h)
          · exact .inr ⟨b :: known, d, rest, e, rfl, hcons hknown, hd⟩

/-- An unknown condition ends the choice, unless the branches before it have ended it. -/
theorem mostSpecific_of_unknown (known rest : List (Label × α)) {b : Label × α} {e : Failure}
    (he : ctx.matching b.1 = .error e) :
    ctx.mostSpecific (known ++ b :: rest) = .error e ∨
      ∃ f, ctx.mostSpecific known = .error f ∧
        ctx.mostSpecific (known ++ b :: rest) = .error f := by
  unfold mostSpecific
  rw [List.foldlM_append]
  cases known.foldlM ctx.prefer none with
  | error f => exact .inr ⟨f, rfl, rfl⟩
  | ok best =>
      refine .inl ?_
      simp only [bind, Except.bind, List.foldlM_cons, prefer, he]

theorem Chosen.append_of_error {known : List (Label × α)} {f : Failure}
    (h : Chosen ctx known (.error f)) (rest : List (Label × α)) :
    Chosen ctx (known ++ rest) (.error f) := by
  cases h with
  | ambiguous both hfirst hsecond hst hts =>
      exact .ambiguous (both.trans (List.sublist_append_left _ _)) hfirst hsecond hst hts
  | unknown mem reason => exact .unknown (List.mem_append_left _ mem) reason

/-- The result of a choice stands for what it should, in every context. -/
theorem winner_beats_matches (ctx : ConditionContext) (branches : List (Label × α)) :
    Chosen ctx branches (ctx.mostSpecific branches) := by
  rcases resolves_or_unknown ctx branches with h | ⟨known, b, rest, e, rfl, hknown, he⟩
  · exact chosen_of_resolves h
  · rcases mostSpecific_of_unknown known rest he with heq | ⟨f, hf, heq⟩
    · rw [heq]
      exact .unknown (List.mem_append_right _ List.mem_cons_self) he
    · rw [heq]
      exact Chosen.append_of_error (hf ▸ chosen_of_resolves hknown) (b :: rest)

end ConditionContext
end BuildAnalysis
