import BuildAnalysis.Proofs.Attribute.Labels
import BuildAnalysis.Proofs.Attribute.Unconfigured

/-!
# What configuring consults

The select keys of an expression are the conditions of the choices written in it, wherever they
stand. Configuring asks its context about no others: contexts that agree on the select keys lead to
the same value or the same failure, and a failure is the expression's own or that of a select key
about which the context gives no answer.
-/
namespace BuildAnalysis

namespace ConditionContext

variable {α : Type} {keys keys' : List Label} {ctx ctx' : ConditionContext}

/-- Two contexts of one configuration answer alike about some conditions. -/
def AgreeOn (keys : List Label) (ctx ctx' : ConditionContext) : Prop :=
  ctx.configuration = ctx'.configuration ∧ ∀ l ∈ keys, ctx.matching l = ctx'.matching l

theorem AgreeOn.mono (h : ctx.AgreeOn keys ctx') (hsub : ∀ l ∈ keys', l ∈ keys) :
    ctx.AgreeOn keys' ctx' := ⟨h.1, fun l hl => h.2 l (hsub l hl)⟩

theorem mostSpecific_congr {branches : List (Label × α)}
    (h : ctx.AgreeOn (branches.map Prod.fst) ctx') :
    ctx.mostSpecific branches = ctx'.mostSpecific branches := by
  have hfold : ∀ best, branches.foldlM ctx.prefer best = branches.foldlM ctx'.prefer best := by
    induction branches with
    | nil => exact fun _ => rfl
    | cons b bs ih =>
        intro best
        have hb : ctx.prefer best b = ctx'.prefer best b := by
          rw [prefer, prefer, h.2 b.1 List.mem_cons_self]
        have hbs := ih (h.mono fun l hl => List.mem_cons_of_mem _ hl)
        rw [List.foldlM_cons, List.foldlM_cons, hb, funext hbs]
  rw [mostSpecific, mostSpecific, hfold none]

/-- What a choice or a concatenation may fail with where some conditions are consulted: a fault of
its own, or what the context says about one of them. -/
inductive Fault (ctx : ConditionContext) (keys : List Label) : Failure → Prop
  | choice (e : SelectError) : Fault ctx keys e.toFailure
  | concat (e : AttrValue.ConcatError) : Fault ctx keys e.toFailure
  | unknown {l : Label} {f : Failure} (hl : l ∈ keys) (h : ctx.matching l = .error f) :
      Fault ctx keys f

theorem Fault.mono {f : Failure} (h : ctx.Fault keys f) (hsub : ∀ l ∈ keys, l ∈ keys') :
    ctx.Fault keys' f := by
  cases h with
  | choice e => exact .choice e
  | concat e => exact .concat e
  | unknown hl h => exact .unknown (hsub _ hl) h

theorem prefer_eq_error {best : Option (Candidate α)} {b : Label × α} {f : Failure}
    (h : ctx.prefer best b = .error f) : ctx.Fault [b.1] f := by
  unfold prefer at h
  split at h
  next e he =>
    obtain rfl := Except.error.inj h
    exact .unknown List.mem_cons_self he
  next => cases h
  next =>
    split at h
    next => cases h
    next best =>
      split at h
      next => cases h
      next =>
        split at h
        next => cases h
        next =>
          obtain rfl := Except.error.inj h
          exact .choice (.ambiguous best.key b.1)

theorem mostSpecific_eq_error {branches : List (Label × α)} {f : Failure}
    (h : ctx.mostSpecific branches = .error f) : ctx.Fault (branches.map Prod.fst) f := by
  have hfold : ∀ (bs : List (Label × α)) best, bs.foldlM ctx.prefer best = .error f →
      ctx.Fault (bs.map Prod.fst) f := by
    intro bs
    induction bs with
    | nil => exact fun _ h => nomatch h
    | cons b bs ih =>
        intro best h
        rw [List.foldlM_cons] at h
        cases hb : ctx.prefer best b with
        | error e =>
            rw [hb] at h
            obtain rfl := Except.error.inj h
            exact (prefer_eq_error hb).mono fun l hl =>
              List.mem_singleton.mp hl ▸ List.mem_cons_self
        | ok next =>
            rw [hb] at h
            exact (ih next h).mono fun l hl => List.mem_cons_of_mem _ hl
  unfold mostSpecific at h
  split at h
  next e he =>
    obtain rfl := Except.error.inj h
    exact hfold branches none he
  next => cases h

end ConditionContext

theorem AttrValue.appendAll_eq_error {rs : List (Except Failure AttrValue)} {acc : AttrValue}
    {f : Failure} (h : acc.appendAll rs = .error f) :
    .error f ∈ rs ∨ ∃ e : AttrValue.ConcatError, f = e.toFailure := by
  induction rs generalizing acc with
  | nil => cases h
  | cons r rs ih =>
      simp only [appendAll] at h
      split at h
      next => exact .inl (h ▸ List.mem_cons_self)
      next v =>
        split at h
        next => exact (ih h).imp_left fun hf => List.mem_cons_of_mem _ hf
        next e _ => exact .inr ⟨e, (Except.error.inj h).symm⟩

namespace AttrExpr

variable {ctx ctx' : ConditionContext}

mutual

/-- Contexts that agree on the conditions of an expression lead to the same result. -/
theorem configure_congr : ∀ e : AttrExpr, ctx.AgreeOn e.keyOccurrences ctx' →
    configure ctx e = configure ctx' e
  | none, _ => rfl
  | bool _, _ => rfl
  | text _, _ => rfl
  | label _, _ => rfl
  | list items, h => by rw [configure, configure, configureItems_congr items h]
  | dict entries, h => by rw [configure, configure, configureEntries_congr entries h]
  | select branches fallback, h => by
      have hbranches := configureBranches_congr branches
        (h.mono fun l hl => List.mem_append_left _ hl)
      have hfallback := configureFallback_congr fallback
        (h.mono fun l hl => List.mem_append_right _ hl)
      have hkeys : ctx.AgreeOn ((configureBranches ctx' branches).map Prod.fst) ctx' := by
        rw [map_fst_configureBranches]
        exact h.mono fun l hl => List.mem_append_left _ (mem_keysOfBranches hl)
      rw [configure, configure, hbranches, hfallback, ConditionContext.mostSpecific_congr hkeys, h.1]
  | concat items, h => by rw [configure, configure, configureItems_congr items h]

theorem configureItems_congr : ∀ es : List AttrExpr, ctx.AgreeOn (keysOfItems es) ctx' →
    configureItems ctx es = configureItems ctx' es
  | [], _ => rfl
  | e :: es, h => by
      rw [configureItems, configureItems,
        configure_congr e (h.mono fun l hl => List.mem_append_left _ hl),
        configureItems_congr es (h.mono fun l hl => List.mem_append_right _ hl)]

theorem configureEntries_congr : ∀ es : List (AttrExpr × AttrExpr),
    ctx.AgreeOn (keysOfEntries es) ctx' → configureEntries ctx es = configureEntries ctx' es
  | [], _ => rfl
  | (k, v) :: es, h => by
      have hentry := h.mono fun l hl => List.mem_append_left (keysOfEntries es) hl
      rw [configureEntries, configureEntries,
        configure_congr k (hentry.mono fun l hl => List.mem_append_left _ hl),
        configure_congr v (hentry.mono fun l hl => List.mem_append_right _ hl),
        configureEntries_congr es (h.mono fun l hl => List.mem_append_right _ hl)]

theorem configureBranches_congr : ∀ bs : List (Label × AttrExpr),
    ctx.AgreeOn (keysOfBranches bs) ctx' → configureBranches ctx bs = configureBranches ctx' bs
  | [], _ => rfl
  | (k, v) :: bs, h => by
      have hrest := h.mono fun l hl => List.mem_cons_of_mem k hl
      rw [configureBranches, configureBranches,
        configure_congr v (hrest.mono fun l hl => List.mem_append_left _ hl),
        configureBranches_congr bs (hrest.mono fun l hl => List.mem_append_right _ hl)]

theorem configureFallback_congr : ∀ f : Option AttrExpr, ctx.AgreeOn (keysOfFallback f) ctx' →
    configureFallback ctx f = configureFallback ctx' f
  | Option.none, _ => rfl
  | some e, h => by rw [configureFallback, configureFallback, configure_congr e h]

end

mutual

/-- An expression fails by a fault of its own or by a condition that it consults. -/
theorem configure_eq_error : ∀ (e : AttrExpr) {f : Failure}, configure ctx e = .error f →
    ctx.Fault e.keyOccurrences f
  | none, f, h => by cases h
  | bool _, f, h => by cases h
  | text _, f, h => by cases h
  | label _, f, h => by cases h
  | list items, f, h => by
      simp only [configure] at h
      split at h
      next e he =>
        obtain rfl := Except.error.inj h
        exact configureItems_error items (mem_of_sequence_eq_error he)
      next => cases h
  | dict entries, f, h => by
      simp only [configure] at h
      split at h
      next e he =>
        obtain rfl := Except.error.inj h
        exact configureEntries_error entries (mem_of_sequence_eq_error he)
      next => cases h
  | select branches fallback, f, h => by
      simp only [configure] at h
      split at h
      next e he =>
        obtain rfl := Except.error.inj h
        have hfault := ConditionContext.mostSpecific_eq_error he
        rw [map_fst_configureBranches] at hfault
        exact hfault.mono fun l hl => List.mem_append_left _ (mem_keysOfBranches hl)
      next value hchosen =>
        have hbranch := ConditionContext.mem_of_mostSpecific hchosen
        exact (configureBranches_error branches (h ▸ hbranch)).mono fun l hl =>
          List.mem_append_left _ hl
      next =>
        split at h
        next value hvalue =>
          exact (configureFallback_error fallback (h ▸ hvalue)).mono fun l hl =>
            List.mem_append_right _ hl
        next =>
          obtain rfl := Except.error.inj h
          exact .choice _
  | concat items, f, h => by
      have hitems := fun {f} => configureItems_error (f := f) items
      simp only [configure] at h
      split at h
      next =>
        obtain rfl := Except.error.inj h
        exact .choice _
      next e rest hvalues =>
        obtain rfl := Except.error.inj h
        exact hitems (hvalues ▸ List.mem_cons_self)
      next value values hvalues =>
        rcases AttrValue.appendAll_eq_error h with hf | ⟨e, rfl⟩
        · exact hitems (hvalues ▸ List.mem_cons_of_mem _ hf)
        · exact .concat e

theorem configureItems_error : ∀ (es : List AttrExpr) {f : Failure},
    .error f ∈ configureItems ctx es → ctx.Fault (keysOfItems es) f
  | [], f, h => by cases h
  | e :: es, f, h => by
      rcases List.mem_cons.mp h with h | h
      · exact (configure_eq_error e h.symm).mono fun l hl => List.mem_append_left _ hl
      · exact (configureItems_error es h).mono fun l hl => List.mem_append_right _ hl

theorem configureEntries_error : ∀ (es : List (AttrExpr × AttrExpr)) {f : Failure},
    .error f ∈ configureEntries ctx es → ctx.Fault (keysOfEntries es) f
  | [], f, h => by cases h
  | (k, v) :: es, f, h => by
      rcases List.mem_cons.mp h with h | h
      · have hentry : ctx.Fault (keyOccurrences k ++ keyOccurrences v) f := by
          split at h
          next e hk =>
            obtain rfl := Except.error.inj h
            exact (configure_eq_error k hk).mono fun l hl => List.mem_append_left _ hl
          next =>
            split at h
            next e hv =>
              obtain rfl := Except.error.inj h
              exact (configure_eq_error v hv).mono fun l hl => List.mem_append_right _ hl
            next => cases h
        exact hentry.mono fun l hl => List.mem_append_left _ hl
      · exact (configureEntries_error es h).mono fun l hl => List.mem_append_right _ hl

theorem configureBranches_error : ∀ (bs : List (Label × AttrExpr)) {f : Failure},
    .error f ∈ (configureBranches ctx bs).map Prod.snd → ctx.Fault (keysOfBranches bs) f
  | [], f, h => by cases h
  | (k, e) :: bs, f, h => by
      rcases List.mem_cons.mp h with h | h
      · exact (configure_eq_error e h.symm).mono fun l hl =>
          List.mem_cons_of_mem _ (List.mem_append_left _ hl)
      · exact (configureBranches_error bs h).mono fun l hl =>
          List.mem_cons_of_mem _ (List.mem_append_right _ hl)

theorem configureFallback_error : ∀ (d : Option AttrExpr) {f : Failure},
    configureFallback ctx d = some (.error f) → ctx.Fault (keysOfFallback d) f
  | Option.none, f, h => by cases h
  | some e, f, h => configure_eq_error e (Option.some.inj h)

end

end AttrExpr
end BuildAnalysis
