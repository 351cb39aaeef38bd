import BuildAnalysis.Analysis.Condition
import BuildAnalysis.Proofs.Attribute.Concatenation
import BuildAnalysis.Proofs.Attribute.Extension
import BuildAnalysis.Proofs.Collection.Listing

/-!
# Labels of configured expressions

Whatever branches an expression takes, every label in its value is written somewhere in it. So the
dependencies that an attribute has in some configuration are among those that it has in any.
-/
namespace BuildAnalysis

namespace AttrValue

theorem mem_labelsOfItems {vs : List AttrValue} {l : Label} :
    l ∈ labelsOfItems vs ↔ ∃ v ∈ vs, l ∈ v.labels := by
  induction vs with
  | nil => simp [labelsOfItems]
  | cons v vs ih => simp [labelsOfItems, ih]

theorem mem_labelsOfEntries {es : List (AttrValue × AttrValue)} {l : Label} :
    l ∈ labelsOfEntries es ↔ ∃ e ∈ es, l ∈ e.1.labels ∨ l ∈ e.2.labels := by
  induction es with
  | nil => simp [labelsOfEntries]
  | cons e es ih =>
      obtain ⟨k, v⟩ := e
      simp [labelsOfEntries, ih, or_assoc]

theorem labels_appendAll {rs : List (Except Failure AttrValue)} {acc v : AttrValue}
    (h : acc.appendAll rs = .ok v) {l : Label} (hl : l ∈ v.labels) :
    l ∈ acc.labels ∨ ∃ w, .ok w ∈ rs ∧ l ∈ w.labels := by
  obtain ⟨vs, rfl, hjoins⟩ := appendAll_eq_ok_iff.mp h
  rw [hjoins.labels_eq, List.flatMap_cons, List.mem_append] at hl
  refine hl.imp_right fun hl => ?_
  obtain ⟨w, hw, hl⟩ := List.mem_flatMap.mp hl
  exact ⟨w, List.mem_map_of_mem hw, hl⟩

end AttrValue

theorem mem_of_sequence_eq_ok {ε α : Type} {rs : List (Except ε α)} {as : List α}
    (h : sequence rs = .ok as) {a : α} (ha : a ∈ as) : .ok a ∈ rs := by
  have hall := sequence_eq_ok h
  clear h
  induction hall with
  | nil => cases ha
  | cons hr _ ih =>
      rcases List.mem_cons.mp ha with rfl | ha
      · exact hr ▸ List.mem_cons_self
      · exact List.mem_cons_of_mem _ (ih ha)

namespace ConditionContext

variable {α : Type} {ctx : ConditionContext}

theorem mem_of_foldlM_prefer {bs : List (Label × α)} {best : Option (Candidate α)}
    {c : Candidate α} (h : bs.foldlM ctx.prefer best = .ok (some c)) :
    best = some c ∨ c.value ∈ bs.map Prod.snd := by
  induction bs generalizing best with
  | nil => exact .inl (Except.ok.inj h)
  | cons b bs ih =>
      simp only [List.foldlM_cons] at h
      cases hnext : ctx.prefer best b with
      | error e =>
          rw [hnext] at h
          cases h
      | ok next =>
          rw [hnext] at h
          rcases ih h with rfl | hmem
          · have hbest : best = some c ∨ c.value = b.2 := by
              unfold prefer at hnext
              split at hnext
              next => cases hnext
              next => exact .inl (Except.ok.inj hnext)
              next s hm =>
                split at hnext
                next =>
                  obtain rfl := Option.some.inj (Except.ok.inj hnext)
                  exact .inr rfl
                next b' =>
                  split at hnext
                  next =>
                    obtain rfl := Option.some.inj (Except.ok.inj hnext)
                    exact .inr rfl
                  next =>
                    split at hnext
                    next => exact .inl (Except.ok.inj hnext)
                    next => cases hnext
            refine hbest.imp_right fun hvalue => ?_
            rw [hvalue]
            exact List.mem_cons_self
          · exact .inr (List.mem_cons_of_mem _ hmem)

theorem mem_of_mostSpecific {bs : List (Label × α)} {a : α}
    (h : ctx.mostSpecific bs = .ok (some a)) : a ∈ bs.map Prod.snd := by
  unfold mostSpecific at h
  split at h
  next => cases h
  next best hbest =>
    obtain ⟨c, rfl, rfl⟩ := Option.map_eq_some_iff.mp (Except.ok.inj h)
    exact (mem_of_foldlM_prefer hbest).resolve_left (by simp)

end ConditionContext

namespace AttrExpr

variable {ctx : ConditionContext}

mutual

/-- The labels of a configured expression are written in it. -/
theorem labels_configure : ∀ (e : AttrExpr) {v : AttrValue}, configure ctx e = .ok v →
    ∀ l ∈ v.labels, l ∈ e.labelOccurrences
  | none, v, h, l, hl => by
      cases h
      cases hl
  | bool _, v, h, l, hl => by
      cases h
      cases hl
  | text _, v, h, l, hl => by
      cases h
      cases hl
  | label _, v, h, l, hl => by
      cases h
      exact hl
  | list items, v, h, l, hl => by
      simp only [configure] at h
      split at h
      next => cases h
      next values hvalues =>
        cases h
        obtain ⟨w, hw, hl⟩ := AttrValue.mem_labelsOfItems.mp hl
        exact labels_configureItems items (mem_of_sequence_eq_ok hvalues hw) l hl
  | dict entries, v, h, l, hl => by
      simp only [configure] at h
      split at h
      next => cases h
      next values hvalues =>
        cases h
        obtain ⟨w, hw, hl⟩ := AttrValue.mem_labelsOfEntries.mp hl
        exact labels_configureEntries entries (mem_of_sequence_eq_ok hvalues hw) l hl
  | select branches fallback, v, h, l, hl => by
      simp only [configure] at h
      split at h
      next => cases h
      next value hchosen =>
        have hbranch := ConditionContext.mem_of_mostSpecific hchosen
        exact List.mem_append_left _ (labels_configureBranches branches (h ▸ hbranch) l hl)
      next hchosen =>
        split at h
        next value hvalue =>
          exact List.mem_append_right _ (labels_configureFallback fallback (h ▸ hvalue) l hl)
        next => cases h
  | concat items, v, h, l, hl => by
      have hitems := fun {w} => labels_configureItems (v := w) items
      simp only [configure] at h
      split at h
      next => cases h
      next => cases h
      next value values hvalues =>
        rw [hvalues] at hitems
        rcases AttrValue.labels_appendAll h hl with hl | ⟨w, hw, hl⟩
        · exact hitems List.mem_cons_self l hl
        · exact hitems (List.mem_cons_of_mem _ hw) l hl

theorem labels_configureItems : ∀ (es : List AttrExpr) {v : AttrValue},
    .ok v ∈ configureItems ctx es → ∀ l ∈ v.labels, l ∈ labelsOfItems es
  | [], v, h, l, hl => by cases h
  | e :: es, v, h, l, hl => by
      rcases List.mem_cons.mp h with h | h
      · exact List.mem_append_left _ (labels_configure e h.symm l hl)
      · exact List.mem_append_right _ (labels_configureItems es h l hl)

theorem labels_configureEntries : ∀ (es : List (AttrExpr × AttrExpr)) {p : AttrValue × AttrValue},
    .ok p ∈ configureEntries ctx es → ∀ l, l ∈ p.1.labels ∨ l ∈ p.2.labels →
      l ∈ labelsOfEntries es
  | [], p, h, l, hl => by cases h
  | (k, v) :: es, p, h, l, hl => by
      rcases List.mem_cons.mp h with h | h
      · refine List.mem_append_left _ ?_
        split at h
        next => cases h
        next a ha =>
          split at h
          next => cases h
          next b hb =>
            cases h
            rcases hl with hl | hl
            · exact List.mem_append_left _ (labels_configure k ha l hl)
            · exact List.mem_append_right _ (labels_configure v hb l hl)
      · exact List.mem_append_right _ (labels_configureEntries es h l hl)

theorem labels_configureBranches : ∀ (bs : List (Label × AttrExpr)) {v : AttrValue},
    .ok v ∈ (configureBranches ctx bs).map Prod.snd → ∀ l ∈ v.labels, l ∈ labelsOfBranches bs
  | [], v, h, l, hl => by cases h
  | (k, e) :: bs, v, h, l, hl => by
      rcases List.mem_cons.mp h with h | h
      · exact List.mem_append_left _ (labels_configure e h.symm l hl)
      · exact List.mem_append_right _ (labels_configureBranches bs h l hl)

theorem labels_configureFallback : ∀ (f : Option AttrExpr) {v : AttrValue},
    configureFallback ctx f = some (.ok v) → ∀ l ∈ v.labels, l ∈ labelsOfFallback f
  | Option.none, v, h, l, hl => by cases h
  | some e, v, h, l, hl => labels_configure e (Option.some.inj h) l hl

end

mutual

theorem labels_unconfigured? : ∀ (e : AttrExpr) {v : AttrValue}, unconfigured? e = some v →
    ∀ l ∈ v.labels, l ∈ e.labelOccurrences
  | none, v, h, l, hl => by
      cases h
      cases hl
  | bool _, v, h, l, hl => by
      cases h
      cases hl
  | text _, v, h, l, hl => by
      cases h
      cases hl
  | label _, v, h, l, hl => by
      cases h
      exact hl
  | list items, v, h, l, hl => by
      obtain ⟨vs, hvs, rfl⟩ := Option.map_eq_some_iff.mp h
      exact labels_unconfiguredItems? items hvs l hl
  | dict entries, v, h, l, hl => by
      obtain ⟨vs, hvs, rfl⟩ := Option.map_eq_some_iff.mp h
      exact labels_unconfiguredEntries? entries hvs l hl
  | select _ _, v, h, l, hl => by cases h
  | concat _, v, h, l, hl => by cases h

theorem labels_unconfiguredItems? : ∀ (es : List AttrExpr) {vs : List AttrValue},
    unconfiguredItems? es = some vs → ∀ l ∈ AttrValue.labelsOfItems vs, l ∈ labelsOfItems es
  | [], vs, h, l, hl => by
      cases h
      cases hl
  | e :: es, vs, h, l, hl => by
      simp only [unconfiguredItems?] at h
      split at h
      next w ws hw hws =>
        cases h
        rcases List.mem_append.mp hl with hl | hl
        · exact List.mem_append_left _ (labels_unconfigured? e hw l hl)
        · exact List.mem_append_right _ (labels_unconfiguredItems? es hws l hl)
      next => cases h

theorem labels_unconfiguredEntries? : ∀ (es : List (AttrExpr × AttrExpr))
    {vs : List (AttrValue × AttrValue)}, unconfiguredEntries? es = some vs →
    ∀ l ∈ AttrValue.labelsOfEntries vs, l ∈ labelsOfEntries es
  | [], vs, h, l, hl => by
      cases h
      cases hl
  | (k, v) :: es, vs, h, l, hl => by
      simp only [unconfiguredEntries?] at h
      split at h
      next a b ws ha hb hws =>
        cases h
        rcases List.mem_append.mp hl with hl | hl
        · refine List.mem_append_left _ ?_
          rcases List.mem_append.mp hl with hl | hl
          · exact List.mem_append_left _ (labels_unconfigured? k ha l hl)
          · exact List.mem_append_right _ (labels_unconfigured? v hb l hl)
        · exact List.mem_append_right _ (labels_unconfiguredEntries? es hws l hl)
      next => cases h

end

end AttrExpr

/-- In a configuration or without one, the labels that an attribute comes to are written in it. -/
theorem Conditions.labels_configure {c : Conditions} {configuration : Option Configuration}
    {e : AttrExpr} {v : AttrValue} (h : c.configure configuration e = .ok v) {l : Label}
    (hl : l ∈ v.labels) : l ∈ e.labelOccurrences := by
  unfold configure at h
  split at h
  next => exact e.labels_configure h l hl
  next =>
    split at h
    next w hw =>
      cases h
      exact e.labels_unconfigured? hw l hl
    next => cases h

theorem Target.mem_unconfiguredDeps {t : Target} {l : Label} :
    l ∈ t.unconfiguredDeps ↔ ∃ e ∈ t.attributes, e.1.kind = .dep ∧ l ∈ e.2.labelOccurrences := by
  have hfold : ∀ (es : List (RuleAttr × AttrExpr)) (known : List Label),
      l ∈ es.foldl (fun ls e => if e.1.kind = .dep then e.2.allLabels ls else ls) known ↔
        l ∈ known ∨ ∃ e ∈ es, e.1.kind = .dep ∧ l ∈ e.2.labelOccurrences := by
    intro es
    induction es with
    | nil => simp
    | cons e es ih =>
        intro known
        rw [List.foldl_cons, ih]
        by_cases hkind : e.1.kind = .dep
        · rw [if_pos hkind, AttrExpr.allLabels, Listing.mem_addAll, List.exists_mem_cons_iff,
            and_iff_right hkind, or_assoc]
        · rw [if_neg hkind, List.exists_mem_cons_iff]
          simp only [hkind, false_and, false_or]
  exact (hfold t.attributes []).trans (or_iff_right List.not_mem_nil)

end BuildAnalysis
