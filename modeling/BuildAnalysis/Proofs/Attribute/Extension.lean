import Mathlib.Data.List.Forall2
import BuildAnalysis.Attribute.Expr

/-!
# Expressions in contexts that know more

A context extends another on some conditions if it knows whatever the other knows about them. An
expression that has a value in a context has the same value in every context that extends it on the
conditions consulted by the expression. So contexts that agree there resolve it alike.
-/
namespace BuildAnalysis

variable {ε α : Type}

/-- If the first result is a value, the second is the same one. -/
def Extended (r r' : Except ε α) : Prop := ∀ a, r = .ok a → r' = .ok a

/-- What a context knows about some conditions another one knows as well. -/
def ConditionContext.ExtendedOn (keys : List Label) (ctx ctx' : ConditionContext) : Prop :=
  ∀ l ∈ keys, Extended (ctx.matching l) (ctx'.matching l)

theorem Extended.refl (r : Except ε α) : Extended r r := fun _ h => h

theorem ConditionContext.ExtendedOn.mono {keys keys' : List Label} {ctx ctx' : ConditionContext}
    (h : ctx.ExtendedOn keys ctx') (hsub : ∀ l ∈ keys', l ∈ keys) : ctx.ExtendedOn keys' ctx' :=
  fun l hl => h l (hsub l hl)

theorem sequence_eq_ok {rs : List (Except ε α)} {as : List α} (h : sequence rs = .ok as) :
    List.Forall₂ (fun r a => r = .ok a) rs as := by
  induction rs generalizing as with
  | nil =>
      cases h
      exact .nil
  | cons r rs ih =>
      simp only [sequence] at h
      split at h
      next => cases h
      next a =>
        split at h
        next => cases h
        next as' hrest =>
          cases h
          exact .cons rfl (ih hrest)

theorem mem_of_sequence_eq_error {rs : List (Except ε α)} {e : ε} (h : sequence rs = .error e) :
    .error e ∈ rs := by
  induction rs with
  | nil => cases h
  | cons r rs ih =>
      simp only [sequence] at h
      split at h
      next =>
        obtain rfl := Except.error.inj h
        exact List.mem_cons_self
      next =>
        split at h
        next hrest =>
          obtain rfl := Except.error.inj h
          exact List.mem_cons_of_mem _ (ih hrest)
        next => cases h

theorem sequence_extended {rs rs' : List (Except ε α)} (h : List.Forall₂ Extended rs rs') :
    Extended (sequence rs) (sequence rs') := by
  induction h with
  | nil => exact .refl _
  | @cons r r' rs rs' hr _ ih =>
      intro as has
      simp only [sequence] at has
      split at has
      next => cases has
      next a =>
        split at has
        next => cases has
        next as' hrest =>
          cases has
          simp only [sequence, hr a rfl, ih as' hrest]

theorem AttrValue.appendAll_extended {rs rs' : List (Except Failure AttrValue)}
    (h : List.Forall₂ Extended rs rs') (acc : AttrValue) :
    Extended (acc.appendAll rs) (acc.appendAll rs') := by
  induction h generalizing acc with
  | nil => exact .refl _
  | @cons r r' rs rs' hr _ ih =>
      intro v hv
      simp only [appendAll] at hv
      split at hv
      next => cases hv
      next w =>
        split at hv
        next acc' hacc =>
          simp only [appendAll, hr w rfl, hacc]
          exact ih acc' v hv
        next => cases hv

/-- Two best candidates of the same condition, the second of which knows its value better. -/
inductive Candidate.Extended :
    Option (Candidate (Except ε α)) → Option (Candidate (Except ε α)) → Prop where
  | none : Candidate.Extended none none
  | some {key : Label} {settings : Settings} {r r' : Except ε α} (h : BuildAnalysis.Extended r r') :
      Candidate.Extended (some ⟨key, settings, r⟩) (some ⟨key, settings, r'⟩)

/-- Branches with the same conditions, the second of which know their values better. -/
def BranchExtended (b b' : Label × Except ε α) : Prop := b.1 = b'.1 ∧ Extended b.2 b'.2

namespace ConditionContext

variable {ctx ctx' : ConditionContext}

theorem prefer_extended {best best' next : Option (Candidate (Except ε α))}
    {b b' : Label × Except ε α} (hbest : Candidate.Extended best best') (hb : BranchExtended b b')
    (hctx : Extended (ctx.matching b.1) (ctx'.matching b.1)) (h : ctx.prefer best b = .ok next) :
    ∃ next', ctx'.prefer best' b' = .ok next' ∧ Candidate.Extended next next' := by
  obtain ⟨key, r⟩ := b
  obtain ⟨key', r'⟩ := b'
  obtain ⟨rfl, hr⟩ := hb
  simp only [prefer] at h ⊢
  split at h
  next => cases h
  next hm =>
    cases h
    exact ⟨best', by rw [hctx _ hm], hbest⟩
  next s hm =>
    rw [hctx _ hm]
    cases hbest with
    | none =>
        cases h
        exact ⟨_, rfl, .some hr⟩
    | @some k t q q' hq =>
        dsimp only at h ⊢
        split at h
        next hrefines =>
          cases h
          exact ⟨_, by rw [if_pos hrefines], .some hr⟩
        next hrefines =>
          split at h
          next hrefines' =>
            cases h
            exact ⟨_, by rw [if_neg hrefines, if_pos hrefines'], .some hq⟩
          next => cases h

theorem foldlM_prefer_extended {bs bs' : List (Label × Except ε α)}
    {best best' last : Option (Candidate (Except ε α))} (hbest : Candidate.Extended best best')
    (hbs : List.Forall₂ BranchExtended bs bs') (hctx : ctx.ExtendedOn (bs.map Prod.fst) ctx')
    (h : bs.foldlM ctx.prefer best = .ok last) :
    ∃ last', bs'.foldlM ctx'.prefer best' = .ok last' ∧ Candidate.Extended last last' := by
  induction hbs generalizing best best' with
  | nil =>
      cases h
      exact ⟨best', rfl, hbest⟩
  | @cons b b' bs bs' hb _ ih =>
      simp only [List.foldlM_cons] at h ⊢
      cases hnext : ctx.prefer best b with
      | error e =>
          rw [hnext] at h
          cases h
      | ok next =>
          rw [hnext] at h
          obtain ⟨next', hnext', hrel⟩ :=
            prefer_extended hbest hb (hctx b.1 List.mem_cons_self) hnext
          rw [hnext']
          exact ih hrel (hctx.mono fun l hl => List.mem_cons_of_mem _ hl) h

/-- If some branch decides, the same branch decides in a context that knows more. -/
theorem mostSpecific_extended {bs bs' : List (Label × Except ε α)}
    {chosen : Option (Except ε α)} (hbs : List.Forall₂ BranchExtended bs bs')
    (hctx : ctx.ExtendedOn (bs.map Prod.fst) ctx') (h : ctx.mostSpecific bs = .ok chosen) :
    (chosen = none ∧ ctx'.mostSpecific bs' = .ok none) ∨
      ∃ r r', chosen = some r ∧ ctx'.mostSpecific bs' = .ok (some r') ∧ Extended r r' := by
  simp only [mostSpecific] at h ⊢
  split at h
  next => cases h
  next last hlast =>
    cases h
    obtain ⟨last', hlast', hrel⟩ := foldlM_prefer_extended .none hbs hctx hlast
    rw [hlast']
    cases hrel with
    | none => exact .inl ⟨rfl, rfl⟩
    | some hr => exact .inr ⟨_, _, rfl, rfl, hr⟩

end ConditionContext

namespace AttrExpr

variable {ctx ctx' : ConditionContext}

theorem map_fst_configureBranches (bs : List (Label × AttrExpr)) :
    (configureBranches ctx bs).map Prod.fst = bs.map Prod.fst := by
  induction bs with
  | nil => rfl
  | cons b bs ih =>
      simp only [configureBranches, List.map_cons, ih]

theorem mem_keysOfBranches {bs : List (Label × AttrExpr)} {l : Label}
    (h : l ∈ bs.map Prod.fst) : l ∈ keysOfBranches bs := by
  induction bs with
  | nil => cases h
  | cons b bs ih =>
      simp only [keysOfBranches, List.mem_cons, List.mem_append]
      rcases List.mem_cons.mp h with rfl | h
      · exact .inl rfl
      · exact .inr (.inr (ih h))

mutual

/-- An expression that has a value has the same one in every context that knows more. -/
theorem configure_extended : ∀ e : AttrExpr, ctx.ExtendedOn e.keyOccurrences ctx' →
    Extended (configure ctx e) (configure ctx' e)
  | none, _ => .refl _
  | bool _, _ => .refl _
  | text _, _ => .refl _
  | label _, _ => .refl _
  | list items, h => by
      have hitems := sequence_extended (configureItems_extended items h)
      intro v hv
      simp only [configure] at hv ⊢
      split at hv
      next => cases hv
      next values hvalues =>
        rw [hitems values hvalues]
        exact hv
  | dict entries, h => by
      have hentries := sequence_extended (configureEntries_extended entries h)
      intro v hv
      simp only [configure] at hv ⊢
      split at hv
      next => cases hv
      next values hvalues =>
        rw [hentries values hvalues]
        exact hv
  | select branches fallback, h => by
      have hbranches := configureBranches_extended branches
        (h.mono fun l hl => List.mem_append_left _ hl)
      have hfallback := configureFallback_extended fallback
        (h.mono fun l hl => List.mem_append_right _ hl)
      have hkeys : ctx.ExtendedOn ((configureBranches ctx branches).map Prod.fst) ctx' := by
        rw [map_fst_configureBranches]
        exact h.mono fun l hl => List.mem_append_left _ (mem_keysOfBranches hl)
      intro v hv
      simp only [configure] at hv ⊢
      split at hv
      next => cases hv
      next value hchosen =>
        rcases ConditionContext.mostSpecific_extended hbranches hkeys hchosen with
          ⟨hnone, _⟩ | ⟨r, r', hr, hchosen', hrel⟩
        · cases hnone
        · obtain rfl := Option.some.inj hr
          rw [hchosen']
          exact hrel v hv
      next hchosen =>
        rcases ConditionContext.mostSpecific_extended hbranches hkeys hchosen with
          ⟨_, hchosen'⟩ | ⟨r, r', hr, _⟩
        · rw [hchosen']
          split at hv
          next value hvalue =>
            obtain ⟨value', hvalue', hrel⟩ := hfallback value hvalue
            rw [hvalue']
            exact hrel v hv
          next => cases hv
        · cases hr
  | concat items, h => by
      have hitems := configureItems_extended items h
      intro v hv
      simp only [configure] at hv ⊢
      split at hv
      next => cases hv
      next => cases hv
      next value values hvalues =>
        rw [hvalues] at hitems
        generalize configureItems ctx' items = rs at hitems ⊢
        cases hitems with
        | cons hvalue hrest =>
            rw [hvalue value rfl]
            exact AttrValue.appendAll_extended hrest value v hv

theorem configureItems_extended : ∀ es : List AttrExpr, ctx.ExtendedOn (keysOfItems es) ctx' →
    List.Forall₂ Extended (configureItems ctx es) (configureItems ctx' es)
  | [], _ => .nil
  | e :: es, h =>
      .cons (configure_extended e (h.mono fun _ hl => List.mem_append_left _ hl))
        (configureItems_extended es (h.mono fun _ hl => List.mem_append_right _ hl))

theorem configureEntries_extended : ∀ es : List (AttrExpr × AttrExpr),
    ctx.ExtendedOn (keysOfEntries es) ctx' →
    List.Forall₂ Extended (configureEntries ctx es) (configureEntries ctx' es)
  | [], _ => .nil
  | (k, v) :: es, h => by
      have hentry := h.mono fun l hl => List.mem_append_left (keysOfEntries es) hl
      have hk := configure_extended k (hentry.mono fun l hl => List.mem_append_left _ hl)
      have hv := configure_extended v (hentry.mono fun l hl => List.mem_append_right _ hl)
      refine .cons (fun p hp => ?_)
        (configureEntries_extended es (h.mono fun l hl => List.mem_append_right _ hl))
      split at hp
      next => cases hp
      next a ha =>
        split at hp
        next => cases hp
        next b hb =>
          rw [hk a ha, hv b hb]
          exact hp

theorem configureBranches_extended : ∀ bs : List (Label × AttrExpr),
    ctx.ExtendedOn (keysOfBranches bs) ctx' →
    List.Forall₂ BranchExtended (configureBranches ctx bs) (configureBranches ctx' bs)
  | [], _ => .nil
  | (k, v) :: bs, h => by
      have hrest := h.mono fun l hl => List.mem_cons_of_mem k hl
      exact .cons
        ⟨rfl, configure_extended v (hrest.mono fun l hl => List.mem_append_left _ hl)⟩
        (configureBranches_extended bs (hrest.mono fun l hl => List.mem_append_right _ hl))

theorem configureFallback_extended : ∀ f : Option AttrExpr,
    ctx.ExtendedOn (keysOfFallback f) ctx' →
    ∀ r, configureFallback ctx f = some r →
      ∃ r', configureFallback ctx' f = some r' ∧ Extended r r'
  | Option.none, _ => fun _ hr => by cases hr
  | some e, h => fun r hr => by
      obtain rfl := Option.some.inj hr
      exact ⟨_, rfl, configure_extended e h⟩

end

end AttrExpr
end BuildAnalysis
