import BuildAnalysis.Attribute.Expr
import BuildAnalysis.Proofs.Configuration.Refinement

/-!
# Choosing among conditions

The branch to take is the matching one that refines all the other matching ones. The choice walks
the branches once and gives up at the first two that do not refine each other, so it finds that
branch exactly if one of the branches is most specific each time that one more has been met. The
order of the branches does not matter exactly if no two of the matching ones are unrelated, or none
of them is most specific.
-/
namespace BuildAnalysis

variable {α : Type}

namespace Candidate

/-- Whether one of the two refines the other. -/
def Comparable (c d : Candidate α) : Prop :=
  c.settings.refines d.settings = true ∨ d.settings.refines c.settings = true

theorem Comparable.symm {c d : Candidate α} (h : c.Comparable d) : d.Comparable c := Or.symm h

/-- Whether `c` is one of the candidates and refines all the others. -/
def MostSpecific (cs : List (Candidate α)) (c : Candidate α) : Prop :=
  ∃ others, cs.Perm (c :: others) ∧ ∀ d ∈ others, c.settings.refines d.settings = true

/-- The better of the best candidate so far and one more. -/
def better (best : Option (Candidate α)) (c : Candidate α) :
    Except Failure (Option (Candidate α)) :=
  match best with
  | none => .ok (some c)
  | some b =>
    if c.settings.refines b.settings then .ok (some c)
    else if b.settings.refines c.settings then .ok (some b)
    else .error (SelectError.ambiguous b.key c.key).toFailure

variable {cs ds : List (Candidate α)} {b c d : Candidate α}

namespace MostSpecific

theorem perm (h : MostSpecific cs c) (hperm : ds.Perm cs) : MostSpecific ds c := by
  obtain ⟨others, hcs, hrefines⟩ := h
  exact ⟨others, hperm.trans hcs, hrefines⟩

theorem mem (h : MostSpecific cs c) : c ∈ cs := by
  obtain ⟨others, hcs, -⟩ := h
  exact hcs.mem_iff.mpr List.mem_cons_self

theorem ne_nil (h : MostSpecific cs c) : cs ≠ [] := List.ne_nil_of_mem h.mem

theorem eq_or_refines (h : MostSpecific cs c) (hd : d ∈ cs) :
    d = c ∨ c.settings.refines d.settings = true := by
  obtain ⟨others, hcs, hrefines⟩ := h
  exact (List.mem_cons.mp (hcs.mem_iff.mp hd)).imp_right (hrefines d)

theorem refines_rest (h : MostSpecific cs c) (hcs : cs.Perm (c :: ds)) :
    ∀ d ∈ ds, c.settings.refines d.settings = true := by
  obtain ⟨others, hcs', hrefines⟩ := h
  have hperm : others.Perm ds := (hcs'.symm.trans hcs).cons_inv
  exact fun d hd => hrefines d (hperm.mem_iff.mpr hd)

theorem unique (h : MostSpecific cs c) (h' : MostSpecific cs d) : c = d := by
  rcases h.eq_or_refines h'.mem with heq | hrefines
  · exact heq.symm
  · exact (h'.eq_or_refines h.mem).resolve_right (Settings.not_refines_of_refines hrefines)

theorem singleton (c : Candidate α) : MostSpecific [c] c :=
  ⟨[], List.Perm.refl _, fun _ hd => absurd hd List.not_mem_nil⟩

/-- One more candidate that refines the most specific one takes its place. -/
theorem replaced (h : MostSpecific cs c) (hrefines : d.settings.refines c.settings = true) :
    MostSpecific (cs ++ [d]) d := by
  refine ⟨cs, List.perm_append_singleton d cs, fun x hx => ?_⟩
  rcases h.eq_or_refines hx with rfl | hx
  · exact hrefines
  · exact Settings.refines_trans hrefines hx

/-- One more candidate that the most specific one refines leaves it in place. -/
theorem kept (h : MostSpecific cs c) (hrefines : c.settings.refines d.settings = true) :
    MostSpecific (cs ++ [d]) c := by
  obtain ⟨others, hcs, hothers⟩ := h
  refine ⟨others ++ [d], hcs.append_right [d], fun x hx => ?_⟩
  rcases List.mem_append.mp hx with hx | hx
  · exact hothers x hx
  · obtain rfl := List.mem_singleton.mp hx
    exact hrefines

/-- If there is a most specific candidate also after one more, one of the two refines the other. -/
theorem comparable_of_append (h : MostSpecific cs c) (h' : MostSpecific (cs ++ [d]) b) :
    c.Comparable d := by
  obtain ⟨others, hcs, hothers⟩ := h
  have hall : (cs ++ [d]).Perm (c :: (others ++ [d])) := hcs.append_right [d]
  by_cases hbc : b = c
  · subst hbc
    exact .inl (h'.refines_rest hall d (List.mem_append_right others List.mem_cons_self))
  · have hc := (h'.eq_or_refines (hall.mem_iff.mpr List.mem_cons_self)).resolve_left (Ne.symm hbc)
    rcases List.mem_append.mp ((List.mem_cons.mp (hall.mem_iff.mp h'.mem)).resolve_left hbc)
      with hb | hb
    · exact absurd hc (Settings.not_refines_of_refines (hothers b hb))
    · obtain rfl := List.mem_singleton.mp hb
      exact .inr hc

end MostSpecific

inductive Best (met : List (Candidate α)) : Option (Candidate α) → Prop
  | none (hmet : met = []) : Best met none
  | some {c : Candidate α} (h : MostSpecific met c) : Best met (some c)

theorem better_of_comparable {met : List (Candidate α)} {best : Option (Candidate α)}
    (h : Best met best) (hcomparable : ∀ b ∈ best, b.Comparable c) :
    ∃ best', better best c = .ok best' ∧ Best (met ++ [c]) best' := by
  cases h with
  | none hmet =>
      subst hmet
      exact ⟨some c, rfl, .some (.singleton c)⟩
  | @some b hb =>
      dsimp only [better]
      by_cases hrefines : c.settings.refines b.settings = true
      · exact ⟨some c, if_pos hrefines, .some (hb.replaced hrefines)⟩
      · have hrefines' := (hcomparable b rfl).resolve_right hrefines
        refine ⟨some b, ?_, .some (hb.kept hrefines')⟩
        rw [if_neg hrefines, if_pos hrefines']

theorem better_of_not_comparable (h : ¬ b.Comparable c) :
    better (some b) c = .error (SelectError.ambiguous b.key c.key).toFailure := by
  obtain ⟨hbc, hcb⟩ := not_or.mp h
  dsimp only [better]
  rw [if_neg hcb, if_neg hbc]

/-- A walk over the candidates either meets them all and ends with the best one, or gives up at one
that is unrelated to the most specific one so far. -/
theorem foldlM_better {met : List (Candidate α)} {best : Option (Candidate α)}
    (h : Best met best) (cs : List (Candidate α)) :
    (∃ best', cs.foldlM better best = .ok best' ∧ Best (met ++ cs) best') ∨
      ∃ before c after b, cs = before ++ c :: after ∧ MostSpecific (met ++ before) b ∧
        ¬ b.Comparable c ∧
          cs.foldlM better best = .error (SelectError.ambiguous b.key c.key).toFailure := by
  induction cs generalizing met best with
  | nil => exact .inl ⟨best, rfl, by rwa [List.append_nil]⟩
  | cons c cs ih =>
      by_cases hcomparable : ∀ b ∈ best, b.Comparable c
      · obtain ⟨next, hnext, hbest⟩ := better_of_comparable h hcomparable
        have hfold : (c :: cs).foldlM better best = cs.foldlM better next := by
          rw [List.foldlM_cons, hnext]
          rfl
        rcases ih hbest with ⟨last, hlast, hend⟩ | ⟨before, d, after, b, hcs, hb, hbd, hlast⟩
        · refine .inl ⟨last, hfold.trans hlast, ?_⟩
          rwa [List.append_assoc] at hend
        · refine .inr ⟨c :: before, d, after, b, by rw [hcs]; rfl, ?_, hbd, hfold.trans hlast⟩
          rwa [List.append_assoc] at hb
      · cases h with
        | none => exact absurd (fun _ hb => nomatch hb) hcomparable
        | @some b hb =>
            have hbc : ¬ b.Comparable c := fun hbc =>
              hcomparable fun b' hb' => by
                obtain rfl := Option.some.inj hb'
                exact hbc
            refine .inr ⟨[], c, cs, b, rfl, by rwa [List.append_nil], hbc, ?_⟩
            rw [List.foldlM_cons, better_of_not_comparable hbc]
            rfl

/-- The results that settle a choice among the candidates as it is meant to be: the value of the
most specific one, nothing where there is no candidate, and else an error that names two of them,
none of which refines the other. -/
inductive Decides (cs : List (Candidate α)) : Except Failure (Option α) → Prop
  | unmatched (hcs : cs = []) : Decides cs (.ok Option.none)
  | best {c : Candidate α} (h : MostSpecific cs c) : Decides cs (.ok (Option.some c.value))
  | ambiguous {b c : Candidate α} {others : List (Candidate α)} (hcs : cs.Perm (b :: c :: others))
      (hbc : ¬ b.Comparable c) (hnone : ¬ ∃ d, MostSpecific cs d) :
      Decides cs (.error (SelectError.ambiguous b.key c.key).toFailure)

theorem Decides.perm {r : Except Failure (Option α)} (h : Decides cs r) (hperm : ds.Perm cs) :
    Decides ds r := by
  cases h with
  | unmatched hcs =>
      subst hcs
      exact .unmatched hperm.eq_nil
  | best h => exact .best (h.perm hperm)
  | ambiguous hcs hbc hnone =>
      refine .ambiguous (hperm.trans hcs) hbc fun hd => hnone ?_
      obtain ⟨d, hd⟩ := hd
      exact ⟨d, hd.perm hperm.symm⟩

theorem Decides.of_error {r : Except Failure (Option α)} (h : Decides cs r) {e : Failure}
    (hr : r = .error e) : ¬ ∃ d, MostSpecific cs d := by
  cases h with
  | unmatched => cases hr
  | best => cases hr
  | ambiguous _ _ hnone => exact hnone

/-- The candidates leave one answer; only which two of them an error names is left open. -/
theorem Decides.unique {r r' : Except Failure (Option α)} (h : Decides cs r) (h' : Decides cs r') :
    r = r' ∨ ∃ b c b' c' : Label, r = .error (SelectError.ambiguous b c).toFailure ∧
      r' = .error (SelectError.ambiguous b' c').toFailure := by
  cases h with
  | unmatched hcs =>
      cases h' with
      | unmatched => exact .inl rfl
      | best h' => exact absurd hcs h'.ne_nil
      | ambiguous hcs' =>
          exact absurd (hcs'.mem_iff.mpr List.mem_cons_self) (hcs ▸ List.not_mem_nil)
  | @best c h =>
      cases h' with
      | unmatched hcs => exact absurd hcs h.ne_nil
      | best h' => exact .inl (by rw [h.unique h'])
      | ambiguous _ _ hnone => exact absurd ⟨c, h⟩ hnone
  | ambiguous hcs _ hnone =>
      cases h' with
      | unmatched hcs' =>
          exact absurd (hcs.mem_iff.mpr List.mem_cons_self) (hcs' ▸ List.not_mem_nil)
      | @best c h' => exact absurd ⟨c, h'⟩ hnone
      | ambiguous => exact .inr ⟨_, _, _, _, rfl, rfl⟩

/-- Whether one of the candidates is most specific each time that one more has been met. -/
def FoundAlong (cs : List (Candidate α)) : Prop :=
  ∀ met, met <+: cs → met ≠ [] → ∃ c, MostSpecific met c

theorem foundAlong_of_foldlM {last : Option (Candidate α)}
    (h : cs.foldlM better none = .ok last) : FoundAlong cs := by
  rintro met ⟨rest, rfl⟩ hmet
  rcases foldlM_better (.none rfl) met with ⟨best, -, hbest⟩ | ⟨_, c, _, b, -, -, -, hmet'⟩
  · rw [List.nil_append] at hbest
    cases hbest with
    | none hnil => exact absurd hnil hmet
    | @some c hc => exact ⟨c, hc⟩
  · rw [List.foldlM_append, hmet'] at h
    cases h

theorem not_foundAlong {before after : List (Candidate α)} (hb : MostSpecific before b)
    (hbc : ¬ b.Comparable c) : ¬ FoundAlong (before ++ c :: after) := by
  intro h
  obtain ⟨d, hd⟩ := h (before ++ [c]) ⟨after, by rw [List.append_assoc]; rfl⟩ (by simp)
  exact hbc (hb.comparable_of_append hd)

theorem foundAlong_of_pairwise (h : cs.Pairwise Comparable) : FoundAlong cs := by
  rcases foldlM_better (.none rfl) cs with ⟨last, hlast, -⟩ | ⟨before, c, after, b, hcs, hb, hbc, -⟩
  · exact foundAlong_of_foldlM hlast
  · rw [hcs, List.pairwise_append] at h
    exact absurd (h.2.2 b hb.mem c List.mem_cons_self) hbc

end Candidate

namespace ConditionContext

open Candidate

variable {ctx : ConditionContext} {branches order : List (Label × α)}

/-- The candidate that a branch gives, if its condition matches. -/
def candidate? (ctx : ConditionContext) (branch : Label × α) : Option (Candidate α) :=
  match ctx.matching branch.1 with
  | .ok (some s) => some ⟨branch.1, s, branch.2⟩
  | _ => none

def candidates (ctx : ConditionContext) (branches : List (Label × α)) : List (Candidate α) :=
  branches.filterMap ctx.candidate?

/-- Whether the context knows all conditions of the branches. -/
def Resolves (ctx : ConditionContext) (branches : List (Label × α)) : Prop :=
  ∀ b ∈ branches, ∃ found, ctx.matching b.1 = .ok found

theorem Resolves.perm (h : ctx.Resolves branches) (hperm : order.Perm branches) :
    ctx.Resolves order := fun b hb => h b (hperm.mem_iff.mp hb)

/-- Where all conditions are known, the choice is a walk over the candidates. -/
theorem foldlM_prefer (h : ctx.Resolves branches) (best : Option (Candidate α)) :
    branches.foldlM ctx.prefer best = (ctx.candidates branches).foldlM better best := by
  induction branches generalizing best with
  | nil => rfl
  | cons b bs ih =>
      have ih := ih fun x hx => h x (List.mem_cons_of_mem b hx)
      obtain ⟨found, hfound⟩ := h b List.mem_cons_self
      rw [List.foldlM_cons, candidates, List.filterMap_cons, prefer, candidate?, hfound]
      cases found with
      | none => exact ih best
      | some s =>
          dsimp only
          rw [List.foldlM_cons]
          exact congrArg _ (funext ih)

/-- What the choice comes to: the right answer, or an error about two unrelated candidates. -/
theorem mostSpecific_cases (h : ctx.Resolves branches) :
    (FoundAlong (ctx.candidates branches) ∧
        Decides (ctx.candidates branches) (ctx.mostSpecific branches)) ∨
      ¬ FoundAlong (ctx.candidates branches) ∧
        ∃ b c others, (ctx.candidates branches).Perm (b :: c :: others) ∧ ¬ b.Comparable c ∧
          ctx.mostSpecific branches = .error (SelectError.ambiguous b.key c.key).toFailure := by
  rcases foldlM_better (.none rfl) (ctx.candidates branches) with
    ⟨last, hlast, hbest⟩ | ⟨before, c, after, b, hcs, hb, hbc, hlast⟩
  · refine .inl ⟨foundAlong_of_foldlM hlast, ?_⟩
    rw [mostSpecific, foldlM_prefer h, hlast]
    rw [List.nil_append] at hbest
    cases hbest with
    | none hnil => exact .unmatched hnil
    | some hc => exact .best hc
  · rw [List.nil_append] at hb
    refine .inr ⟨hcs ▸ not_foundAlong hb hbc, b, c, ?_⟩
    obtain ⟨others, hbefore, -⟩ := hb
    refine ⟨others ++ after, ?_, hbc, by rw [mostSpecific, foldlM_prefer h, hlast]⟩
    rw [hcs]
    exact (hbefore.append_right (c :: after)).trans (List.perm_middle.cons b)

/-- The choice is right exactly if no candidate is most specific, or the most specific one has been
found each time that one more has been met. -/
theorem mostSpecific_decides_iff (h : ctx.Resolves branches) :
    Decides (ctx.candidates branches) (ctx.mostSpecific branches) ↔
      ((∃ c, MostSpecific (ctx.candidates branches) c) →
        FoundAlong (ctx.candidates branches)) := by
  rcases mostSpecific_cases h with ⟨hfound, hdecides⟩ | ⟨hfound, b, c, others, hcs, hbc, herror⟩
  · exact iff_of_true hdecides fun _ => hfound
  · rw [herror]
    constructor
    · exact fun hdecides hc => absurd hc (hdecides.of_error rfl)
    · exact fun hc => .ambiguous hcs hbc fun hd => hfound (hc hd)

theorem candidates_perm (ctx : ConditionContext) (h : order.Perm branches) :
    (ctx.candidates order).Perm (ctx.candidates branches) := h.filterMap _

/-- Two candidates can be met first in some order of the branches. -/
theorem exists_order_of_sublist {b c : Candidate α} (h : [b, c].Sublist (ctx.candidates branches)) :
    ∃ order others, order.Perm branches ∧ ctx.candidates order = b :: c :: others := by
  obtain ⟨pair, hpair, hbc⟩ := List.sublist_filterMap_iff.mp h
  obtain ⟨rest, hrest⟩ := hpair.exists_perm_append
  refine ⟨pair ++ rest, ctx.candidates rest, hrest.symm, ?_⟩
  rw [candidates, List.filterMap_append, ← hbc]
  rfl

/-- If some candidate is most specific, it is found in every order of the branches exactly if of any
two candidates one refines the other. -/
theorem foundAlong_every_order_iff :
    (∀ order : List (Label × α), order.Perm branches → FoundAlong (ctx.candidates order)) ↔
      (ctx.candidates branches).Pairwise Comparable := by
  constructor
  · intro h
    refine List.pairwise_iff_forall_sublist.mpr fun {b c} hsub => ?_
    obtain ⟨order, others, horder, hcs⟩ := exists_order_of_sublist hsub
    exact Classical.byContradiction fun hbc =>
      not_foundAlong (.singleton b) hbc (hcs ▸ h order horder)
  · intro h order horder
    exact foundAlong_of_pairwise
      (((ctx.candidates_perm horder).pairwise_iff fun hab => hab.symm).mpr h)

/-- The order of the branches does not matter exactly if of any two candidates one refines the
other, or none of the candidates is most specific. In one order, the choice is right exactly if a
candidate that is most specific is found along the way, and it goes wrong by an error only. -/
theorem order_irrelevant_iff (resolved : ctx.Resolves branches) :
    ((∀ order : List (Label × α), order.Perm branches →
        Decides (ctx.candidates branches) (ctx.mostSpecific order)) ↔
      ((∃ c, MostSpecific (ctx.candidates branches) c) →
        (ctx.candidates branches).Pairwise Comparable)) ∧
    ∀ order : List (Label × α), order.Perm branches →
      (Decides (ctx.candidates branches) (ctx.mostSpecific order) ↔
        ((∃ c, MostSpecific (ctx.candidates branches) c) → FoundAlong (ctx.candidates order))) ∧
      (Decides (ctx.candidates branches) (ctx.mostSpecific order) ∨
        ∃ b c others, (ctx.candidates branches).Perm (b :: c :: others) ∧ ¬ b.Comparable c ∧
          ctx.mostSpecific order = .error (SelectError.ambiguous b.key c.key).toFailure) := by
  have hone : ∀ order : List (Label × α), order.Perm branches →
      (Decides (ctx.candidates branches) (ctx.mostSpecific order) ↔
        ((∃ c, MostSpecific (ctx.candidates branches) c) →
          FoundAlong (ctx.candidates order))) := by
    intro order horder
    have hcs := ctx.candidates_perm horder
    have hdecides : Decides (ctx.candidates branches) (ctx.mostSpecific order) ↔
        Decides (ctx.candidates order) (ctx.mostSpecific order) :=
      ⟨fun h => h.perm hcs, fun h => h.perm hcs.symm⟩
    have hbest : (∃ c, MostSpecific (ctx.candidates branches) c) ↔
        ∃ c, MostSpecific (ctx.candidates order) c :=
      exists_congr fun c => ⟨fun h => h.perm hcs, fun h => h.perm hcs.symm⟩
    rw [hdecides, hbest, mostSpecific_decides_iff (resolved.perm horder)]
  refine ⟨?_, fun order horder => ⟨hone order horder, ?_⟩⟩
  · rw [← foundAlong_every_order_iff]
    exact ⟨fun h hc order horder => (hone order horder).mp (h order horder) hc,
      fun h order horder => (hone order horder).mpr fun hc => h hc order horder⟩
  · have hcs := ctx.candidates_perm horder
    rcases mostSpecific_cases (resolved.perm horder) with
      ⟨-, hdecides⟩ | ⟨-, b, c, others, hbc, hne, herror⟩
    · exact .inl (hdecides.perm hcs.symm)
    · exact .inr ⟨b, c, others, hcs.symm.trans hbc, hne, herror⟩

end ConditionContext

namespace ChoiceSample

open Candidate

def fast : Label := ⟨⟨"cpu", rfl, by decide⟩, ⟨"fast", rfl, by decide⟩⟩

def x86 : Label := ⟨fast.package, ⟨"x86", rfl, by decide⟩⟩

def fastX86 : Label := ⟨fast.package, ⟨"fast_x86", rfl, by decide⟩⟩

def options : BuildOptions :=
  (({} : BuildOptions).setOption "cpp" "opt" "2").setOption "cpu" "arch" "x86"

def onOpt : Settings := { values := .ofList [("cpp.opt", "2")] }

def onArch : Settings := { values := .ofList [("cpu.arch", "x86")] }

def onBoth : Settings := { values := .ofList [("cpp.opt", "2"), ("cpu.arch", "x86")] }

/-- A context in which three conditions match, one of which refines the other two. -/
def context : ConditionContext :=
  .ofSettings (.ofOptions options) [(fast, onOpt), (x86, onArch), (fastX86, onBoth)]

def branches : List (Label × String) := [(fast, "fast"), (x86, "x86"), (fastX86, "both")]

def reordered : List (Label × String) := [(fast, "fast"), (fastX86, "both"), (x86, "x86")]

theorem resolves : context.Resolves branches := by
  intro b hb
  simp only [branches, List.mem_cons, List.not_mem_nil, or_false] at hb
  rcases hb with rfl | rfl | rfl
  · exact ⟨some onOpt, rfl⟩
  · exact ⟨some onArch, rfl⟩
  · exact ⟨some onBoth, rfl⟩

theorem candidates_eq :
    context.candidates branches =
      [⟨fast, onOpt, "fast"⟩, ⟨x86, onArch, "x86"⟩, ⟨fastX86, onBoth, "both"⟩] := rfl

theorem mostSpecific_both :
    MostSpecific (context.candidates branches) ⟨fastX86, onBoth, "both"⟩ := by
  refine ⟨[⟨fast, onOpt, "fast"⟩, ⟨x86, onArch, "x86"⟩], ?_, ?_⟩
  · rw [candidates_eq]
    exact List.perm_append_singleton _ [_, _]
  · intro d hd
    simp only [List.mem_cons, List.not_mem_nil, or_false] at hd
    rcases hd with rfl | rfl <;> decide +kernel

/-- With only one of the two general conditions, the refining one is taken in either order. -/
theorem order_irrelevant_two :
    context.Resolves (branches.drop 1) ∧
      ∀ order : List (Label × String), order.Perm (branches.drop 1) →
        Decides (context.candidates (branches.drop 1)) (context.mostSpecific order) := by
  have hresolves : context.Resolves (branches.drop 1) :=
    fun b hb => resolves b (List.mem_of_mem_drop hb)
  refine ⟨hresolves, (ConditionContext.order_irrelevant_iff hresolves).1.mpr fun _ => ?_⟩
  exact List.pairwise_pair.mpr (.inr (by decide +kernel))

/-- Two general conditions that are met before the one that refines both of them are an error,
although the third one is taken if it is met between them. -/
theorem general_first_ambiguous :
    context.Resolves branches ∧ reordered.Perm branches ∧
      MostSpecific (context.candidates branches) ⟨fastX86, onBoth, "both"⟩ ∧
      context.mostSpecific reordered = .ok (some "both") ∧
      context.mostSpecific branches = .error (SelectError.ambiguous fast x86).toFailure :=
  ⟨resolves, (List.Perm.swap _ _ []).cons _, mostSpecific_both, rfl, rfl⟩

end ChoiceSample
end BuildAnalysis
