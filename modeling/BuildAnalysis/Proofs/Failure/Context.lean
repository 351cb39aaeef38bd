import BuildAnalysis.Failure.Basic
import BuildAnalysis.Proofs.Collection.Listing

/-!
# Failures under context

On its way up a failure is given texts and tags, in any number and any order. They go onto one
stack, the last one on top. Its tags are read from the bottom, where the root is, and its texts from
the top; neither disturbs the other. A failure is ranked by all of its tags, so it does not matter
in which order they were given, and a failure never gets less important.
-/
namespace BuildAnalysis.Failure

inductive Step where
  /-- A text is put in front. -/
  | within (s : String)
  /-- Tags are put on top as context, even if there are none. -/
  | under (ts : List Tag)
  /-- The failure is tagged. -/
  | tagged (ts : List Tag)

namespace Step

def apply (f : Failure) : Step → Failure
  | within s => f.within s
  | under ts => f.addContext (.tags ts)
  | tagged ts => f.addTags ts

def attached : Step → List Tag
  | within _ => []
  | under ts => ts
  | tagged ts => ts

def text? : Step → Option String
  | within s => some s
  | under _ => none
  | tagged _ => none

end Step

/-- A root after some steps, the first of which is taken first. -/
def after (r : Root) (steps : List Step) : Failure := steps.foldl Step.apply ⟨r, []⟩

variable {r : Root} {steps steps' : List Step} {f g : Failure}

theorem exists_after (root : Root) (context : List Context) :
    ∃ steps, after root steps = ⟨root, context⟩ := by
  induction context with
  | nil => exact ⟨[], rfl⟩
  | cons c context ih =>
      obtain ⟨steps, hsteps⟩ := ih
      have hconcat : ∀ s, after root (steps ++ [s]) = s.apply ⟨root, context⟩ := fun s => by
        rw [after, List.foldl_append, ← hsteps]
        rfl
      cases c with
      | text s => exact ⟨steps ++ [.within s], hconcat _⟩
      | tags ts => exact ⟨steps ++ [.under ts], hconcat _⟩

/-! ### What a step does -/

theorem root_apply (f : Failure) (s : Step) : (s.apply f).root = f.root := by
  cases s with
  | within s => rfl
  | under ts => rfl
  | tagged ts => cases ts <;> rfl

theorem tags_addContext (f : Failure) (c : Context) :
    (f.addContext c).tags = Listing.addAll f.tags c.tagList := by
  rw [tags, addContext, List.reverse_cons, List.flatMap_append, Listing.addAll_append,
    List.flatMap_singleton]
  rfl

theorem tags_apply (f : Failure) (s : Step) :
    (s.apply f).tags = Listing.addAll f.tags s.attached := by
  cases s with
  | within s => exact tags_addContext f (.text s)
  | under ts => exact tags_addContext f (.tags ts)
  | tagged ts =>
      cases ts with
      | nil => rfl
      | cons t ts => exact tags_addContext f (.tags (t :: ts))

theorem texts_apply (f : Failure) (s : Step) : (s.apply f).texts = s.text?.toList ++ f.texts := by
  cases s with
  | within s => rfl
  | under ts => rfl
  | tagged ts => cases ts <;> rfl

/-! ### What any number of steps does -/

theorem root_foldl_apply : (steps.foldl Step.apply f).root = f.root := by
  induction steps generalizing f with
  | nil => rfl
  | cons s steps ih => rw [List.foldl_cons, ih, root_apply]

theorem tags_foldl_apply : (steps.foldl Step.apply f).tags =
    Listing.addAll f.tags (steps.flatMap Step.attached) := by
  induction steps generalizing f with
  | nil => rfl
  | cons s steps ih =>
      rw [List.foldl_cons, ih, tags_apply, List.flatMap_cons, Listing.addAll_append]

theorem texts_foldl_apply : (steps.foldl Step.apply f).texts =
    (steps.filterMap Step.text?).reverse ++ f.texts := by
  induction steps generalizing f with
  | nil => rfl
  | cons s steps ih =>
      rw [List.foldl_cons, ih, texts_apply]
      cases hs : s.text? with
      | none => simp [hs]
      | some text => simp [hs]

theorem description_after (r : Root) (steps : List Step) :
    (after r steps).description = r.description :=
  congrArg Root.description root_foldl_apply

theorem tags_after (r : Root) (steps : List Step) :
    (after r steps).tags = (r.tag :: steps.flatMap Step.attached).eraseDups := by
  rw [after, tags_foldl_apply, ← Listing.distinct_eq_eraseDups]
  rfl

theorem texts_after (r : Root) (steps : List Step) :
    (after r steps).texts = (steps.filterMap Step.text?).reverse ++ [r.description] :=
  texts_foldl_apply

/-! ### The most important tag -/

theorem best?_tags (f : Failure) : Tag.best? f.tags = some f.bestTag := by
  have hroot : f.root.tag ∈ f.tags := Listing.mem_addAll.mpr (.inl List.mem_cons_self)
  obtain ⟨t, ht, -⟩ := Tag.rank_best?_le hroot
  rw [bestTag, ht]
  rfl

theorem bestTag_spec (f : Failure) : f.bestTag ∈ f.tags ∧ ∀ t ∈ f.tags, f.bestTag.rank ≤ t.rank :=
  Tag.best?_eq_some_iff.mp f.best?_tags

theorem bestTag_congr (h : ∀ t, t ∈ f.tags ↔ t ∈ g.tags) : f.bestTag = g.bestTag := by
  have hbest := Tag.best?_congr h
  rw [best?_tags, best?_tags] at hbest
  exact Option.some.inj hbest

theorem mem_tags_after {t : Tag} :
    t ∈ (after r steps).tags ↔ t = r.tag ∨ ∃ s ∈ steps, t ∈ s.attached := by
  rw [tags_after, List.mem_eraseDups, List.mem_cons, List.mem_flatMap]

/-- The rank does not depend on the order of the steps. -/
theorem bestTag_perm (h : steps.Perm steps') :
    (after r steps).bestTag = (after r steps').bestTag :=
  bestTag_congr fun t => by simp only [mem_tags_after, h.mem_iff]

theorem bestTag_text (before later : List Step) (s : String) :
    (after r (before ++ .within s :: later)).bestTag = (after r (before ++ later)).bestTag := by
  refine bestTag_congr fun t => ?_
  have hnone : t ∉ (Step.within s).attached := List.not_mem_nil
  simp only [mem_tags_after, List.mem_append, List.mem_cons]
  grind

theorem rank_bestTag_apply_le (f : Failure) (s : Step) :
    (s.apply f).bestTag.rank ≤ f.bestTag.rank := by
  have hkept : f.bestTag ∈ (s.apply f).tags := by
    rw [tags_apply]
    exact Listing.mem_addAll.mpr (.inl f.bestTag_spec.1)
  exact (s.apply f).bestTag_spec.2 _ hkept

/-! ### The texts shown -/

theorem numbered_eq (n : Nat) (ss : List String) :
    numbered n ss = String.join ((ss.zipIdx n).map fun e => s!"\n    {e.2}: {e.1}") := by
  induction ss generalizing n with
  | nil => rfl
  | cons s ss ih => rw [numbered, ih, List.zipIdx_cons, List.map_cons, String.join_cons]

/-- The texts that were attached, last one first, and the description. The first text stands on top,
and what it covers is numbered from zero. -/
def layered (description : String) : List String → String
  | [] => description
  | top :: covered => top ++ "\n\nCaused by:" ++
    String.join ((covered ++ [description]).zipIdx.map fun e => s!"\n    {e.2}: {e.1}")

theorem message_after (r : Root) (steps : List Step) : (after r steps).message =
    (steps.filterMap Step.text?).getLast?.getD r.description := by
  rw [message, texts_after, List.headD_eq_head?_getD, List.head?_append, List.head?_reverse]
  cases (steps.filterMap Step.text?).getLast? <;> rfl

theorem fullText_after (r : Root) (steps : List Step) : (after r steps).fullText =
    layered r.description (steps.filterMap Step.text?).reverse := by
  rw [fullText, texts_after]
  cases (steps.filterMap Step.text?).reverse with
  | nil => rfl
  | cons top covered =>
      rw [layered, ← numbered_eq]
      cases covered <;> rfl

/-- The root of a failure stays what it is. The tags are that of the root and all that were
attached since, in order and each once; the failure ranks as the most important of them, whatever
the order in which they were attached and whatever texts came in between, and no step makes it less
important. The text attached last stands for the failure, with all earlier ones and the description
below it. Every stack of context comes about in this way. -/
theorem context_composes (r : Root) (steps : List Step) :
    (after r steps).description = r.description ∧
      (after r steps).tags = (r.tag :: steps.flatMap Step.attached).eraseDups ∧
      ((after r steps).bestTag ∈ (after r steps).tags ∧
        ∀ t ∈ (after r steps).tags, (after r steps).bestTag.rank ≤ t.rank) ∧
      (∀ steps', steps.Perm steps' → (after r steps').bestTag = (after r steps).bestTag) ∧
      (∀ before later s, steps = before ++ .within s :: later →
        (after r (before ++ later)).bestTag = (after r steps).bestTag) ∧
      (∀ s, (after r (steps ++ [s])).bestTag.rank ≤ (after r steps).bestTag.rank) ∧
      (after r steps).message = (steps.filterMap Step.text?).getLast?.getD r.description ∧
      (after r steps).fullText = layered r.description (steps.filterMap Step.text?).reverse ∧
      ∀ context, ∃ steps', after r steps' = ⟨r, context⟩ := by
  refine ⟨description_after r steps, tags_after r steps, bestTag_spec _, fun _ h => ?_,
    fun before later s h => ?_, fun s => ?_, message_after r steps, fullText_after r steps,
    exists_after r⟩
  · exact (bestTag_perm h).symm
  · rw [h, bestTag_text]
  · rw [after, List.foldl_append]
    exact rank_bestTag_apply_le _ s

end BuildAnalysis.Failure

namespace BuildAnalysis.ContextSample

open Failure (Step after)

def noPackage : Failure.Root := ⟨"no such package", .packageLoading, none, 0⟩

def steps : List Step :=
  [.within "loading //foo:bar", .tagged [.analysis, .packageLoading], .under [],
    .within "analyzing //app:bin"]

theorem context_composes_bin :
    (after noPackage steps).tags = [.packageLoading, .analysis] ∧ steps.Perm steps.reverse ∧
      (after noPackage steps).bestTag = .packageLoading ∧
      (after noPackage steps.reverse).bestTag = .packageLoading ∧
      (after noPackage steps.tail).bestTag = .packageLoading ∧
      (after noPackage (steps ++ [.tagged [.input]])).bestTag.rank ≤ 3 ∧
      (after noPackage steps).message = "analyzing //app:bin" ∧
      (after noPackage steps).fullText =
        "analyzing //app:bin\n\nCaused by:\n    0: loading //foo:bar\n    1: no such package" := by
  have hbest : (after noPackage steps).bestTag = .packageLoading := rfl
  have hreverse : steps.Perm steps.reverse := steps.reverse_perm.symm
  obtain ⟨-, htags, -, hperm, htext, hstep, hmessage, hfull, -⟩ :=
    Failure.context_composes noPackage steps
  have hwithout := htext [] steps.tail "loading //foo:bar" rfl
  have hrank := hstep (.tagged [.input])
  rw [hbest] at hrank
  exact ⟨htags, hreverse, hbest, (hperm _ hreverse).trans hbest, hwithout.trans hbest, hrank,
    hmessage, hfull.trans (by decide +kernel)⟩

end BuildAnalysis.ContextSample
