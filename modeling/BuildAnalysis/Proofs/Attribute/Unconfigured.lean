import BuildAnalysis.Proofs.Attribute.Extension

/-!
# Expressions that consult no condition

An expression without choices comes to the same in every context. It should therefore have a value
without a context too, and it does if nothing in it is put together by concatenation. With a
concatenation it never does, although concatenating needs no context.
-/
namespace BuildAnalysis

namespace AttrExpr

mutual

/-- The expression and whatever is written in it, at any depth and in every branch. -/
def parts : AttrExpr → List AttrExpr
  | list items => list items :: partsOfItems items
  | dict entries => dict entries :: partsOfEntries entries
  | select branches fallback =>
    select branches fallback :: (partsOfBranches branches ++ partsOfFallback fallback)
  | concat items => concat items :: partsOfItems items
  | e => [e]

def partsOfItems : List AttrExpr → List AttrExpr
  | [] => []
  | x :: xs => parts x ++ partsOfItems xs

def partsOfEntries : List (AttrExpr × AttrExpr) → List AttrExpr
  | [] => []
  | (k, v) :: es => parts k ++ parts v ++ partsOfEntries es

def partsOfBranches : List (Label × AttrExpr) → List AttrExpr
  | [] => []
  | (_, v) :: bs => parts v ++ partsOfBranches bs

def partsOfFallback : Option AttrExpr → List AttrExpr
  | Option.none => []
  | some x => parts x

end

def isChoice : AttrExpr → Bool
  | select _ _ => true
  | _ => false

def isConcat : AttrExpr → Bool
  | concat _ => true
  | _ => false

/-- Nothing in the expression is a choice. -/
def ChoiceFree (e : AttrExpr) : Prop := ∀ x ∈ e.parts, x.isChoice = false

/-- Nothing in the expression is a concatenation. -/
def ConcatFree (e : AttrExpr) : Prop := ∀ x ∈ e.parts, x.isConcat = false

instance (e : AttrExpr) : Decidable e.ChoiceFree :=
  inferInstanceAs (Decidable (∀ x ∈ e.parts, x.isChoice = false))

instance (e : AttrExpr) : Decidable e.ConcatFree :=
  inferInstanceAs (Decidable (∀ x ∈ e.parts, x.isConcat = false))

/-- The expression is a choice, and the label is one of its conditions. -/
def Asks (l : Label) : AttrExpr → Prop
  | select branches _ => l ∈ branches.map Prod.fst
  | _ => False

theorem Asks.isChoice {l : Label} {e : AttrExpr} (h : e.Asks l) : e.isChoice = true := by
  cases e with
  | select => rfl
  | _ => cases h

mutual

/-- The conditions of an expression are those of the choices written in it. -/
theorem mem_keyOccurrences_iff {l : Label} : ∀ e : AttrExpr,
    l ∈ e.keyOccurrences ↔ ∃ x ∈ e.parts, x.Asks l
  | none => by simp [keyOccurrences, parts, Asks]
  | bool _ => by simp [keyOccurrences, parts, Asks]
  | text _ => by simp [keyOccurrences, parts, Asks]
  | label _ => by simp [keyOccurrences, parts, Asks]
  | list items => by
      rw [keyOccurrences, parts, mem_keysOfItems_iff items, List.exists_mem_cons_iff]
      exact (or_iff_right id).symm
  | dict entries => by
      rw [keyOccurrences, parts, mem_keysOfEntries_iff entries, List.exists_mem_cons_iff]
      exact (or_iff_right id).symm
  | select branches fallback => by
      rw [keyOccurrences, parts, List.mem_append, mem_keysOfBranches_iff branches,
        mem_keysOfFallback_iff fallback, List.exists_mem_cons_iff, or_assoc]
      simp only [List.mem_append, or_and_right, exists_or]
      rfl
  | concat items => by
      rw [keyOccurrences, parts, mem_keysOfItems_iff items, List.exists_mem_cons_iff]
      exact (or_iff_right id).symm

theorem mem_keysOfItems_iff {l : Label} : ∀ es : List AttrExpr,
    l ∈ keysOfItems es ↔ ∃ x ∈ partsOfItems es, x.Asks l
  | [] => by simp [keysOfItems, partsOfItems]
  | e :: es => by
      simp only [keysOfItems, partsOfItems, List.mem_append, or_and_right, exists_or,
        mem_keyOccurrences_iff e, mem_keysOfItems_iff es]

theorem mem_keysOfEntries_iff {l : Label} : ∀ es : List (AttrExpr × AttrExpr),
    l ∈ keysOfEntries es ↔ ∃ x ∈ partsOfEntries es, x.Asks l
  | [] => by simp [keysOfEntries, partsOfEntries]
  | (k, v) :: es => by
      simp only [keysOfEntries, partsOfEntries, List.mem_append, or_and_right, exists_or,
        mem_keyOccurrences_iff k, mem_keyOccurrences_iff v, mem_keysOfEntries_iff es]

theorem mem_keysOfBranches_iff {l : Label} : ∀ bs : List (Label × AttrExpr),
    l ∈ keysOfBranches bs ↔ l ∈ bs.map Prod.fst ∨ ∃ x ∈ partsOfBranches bs, x.Asks l
  | [] => by simp [keysOfBranches, partsOfBranches]
  | (k, v) :: bs => by
      simp only [keysOfBranches, partsOfBranches, List.mem_cons, List.mem_append, List.map_cons,
        or_and_right, exists_or, mem_keyOccurrences_iff v, mem_keysOfBranches_iff bs]
      rw [or_assoc, or_left_comm (a := l ∈ bs.map Prod.fst)]

theorem mem_keysOfFallback_iff {l : Label} : ∀ f : Option AttrExpr,
    l ∈ keysOfFallback f ↔ ∃ x ∈ partsOfFallback f, x.Asks l
  | Option.none => by simp [keysOfFallback, partsOfFallback]
  | some e => mem_keyOccurrences_iff e

end

theorem keyOccurrences_eq_nil {e : AttrExpr} (free : e.ChoiceFree) : e.keyOccurrences = [] := by
  rw [List.eq_nil_iff_forall_not_mem]
  intro l hl
  obtain ⟨x, hx, hasks⟩ := (mem_keyOccurrences_iff e).mp hl
  have hchoice := hasks.isChoice
  rw [free x hx] at hchoice
  cases hchoice

theorem ChoiceFree.configure_eq_ok_iff {e : AttrExpr} (free : e.ChoiceFree)
    (ctx ctx' : ConditionContext) (v : AttrValue) :
    e.configure ctx = .ok v ↔ e.configure ctx' = .ok v := by
  have hextended : ∀ ctx ctx' : ConditionContext, ctx.ExtendedOn e.keyOccurrences ctx' := by
    intro ctx ctx' l hl
    rw [keyOccurrences_eq_nil free] at hl
    cases hl
  exact ⟨configure_extended e (hextended ctx ctx') v, configure_extended e (hextended ctx' ctx) v⟩

theorem sequence_map_ok {ε α : Type} (as : List α) :
    sequence (as.map (Except.ok (ε := ε))) = .ok as := by
  induction as with
  | nil => rfl
  | cons a as ih => rw [List.map_cons, sequence, ih]

mutual

theorem configure_eq_of_unconfigured? (ctx : ConditionContext) : ∀ (e : AttrExpr) {v : AttrValue},
    unconfigured? e = some v → configure ctx e = .ok v
  | none, v, h => congrArg Except.ok (Option.some.inj h)
  | bool _, v, h => congrArg Except.ok (Option.some.inj h)
  | text _, v, h => congrArg Except.ok (Option.some.inj h)
  | label _, v, h => congrArg Except.ok (Option.some.inj h)
  | list items, v, h => by
      obtain ⟨vs, hvs, rfl⟩ := Option.map_eq_some_iff.mp h
      rw [configure, configureItems_eq_of_unconfigured? ctx items hvs, sequence_map_ok]
  | dict entries, v, h => by
      obtain ⟨vs, hvs, rfl⟩ := Option.map_eq_some_iff.mp h
      rw [configure, configureEntries_eq_of_unconfigured? ctx entries hvs, sequence_map_ok]
  | select _ _, v, h => by cases h
  | concat _, v, h => by cases h

theorem configureItems_eq_of_unconfigured? (ctx : ConditionContext) : ∀ (es : List AttrExpr)
    {vs : List AttrValue}, unconfiguredItems? es = some vs →
    configureItems ctx es = vs.map .ok
  | [], vs, h => by
      cases h
      rfl
  | e :: es, vs, h => by
      simp only [unconfiguredItems?] at h
      split at h
      next w ws hw hws =>
        cases h
        rw [configureItems, configure_eq_of_unconfigured? ctx e hw,
          configureItems_eq_of_unconfigured? ctx es hws, List.map_cons]
      next => cases h

theorem configureEntries_eq_of_unconfigured? (ctx : ConditionContext) :
    ∀ (es : List (AttrExpr × AttrExpr)) {vs : List (AttrValue × AttrValue)},
    unconfiguredEntries? es = some vs → configureEntries ctx es = vs.map .ok
  | [], vs, h => by
      cases h
      rfl
  | (k, v) :: es, vs, h => by
      simp only [unconfiguredEntries?] at h
      split at h
      next a b ws ha hb hws =>
        cases h
        rw [configureEntries, configure_eq_of_unconfigured? ctx k ha,
          configure_eq_of_unconfigured? ctx v hb,
          configureEntries_eq_of_unconfigured? ctx es hws, List.map_cons]
      next => cases h

end

mutual

/-- There is a value without a context for exactly the expressions that contain neither a choice
nor a concatenation. -/
theorem isSome_unconfigured?_iff : ∀ e : AttrExpr,
    e.unconfigured?.isSome ↔ ∀ x ∈ e.parts, x.isChoice = false ∧ x.isConcat = false
  | none => by simp [unconfigured?, parts, isChoice, isConcat]
  | bool _ => by simp [unconfigured?, parts, isChoice, isConcat]
  | text _ => by simp [unconfigured?, parts, isChoice, isConcat]
  | label _ => by simp [unconfigured?, parts, isChoice, isConcat]
  | list items => by
      simp [unconfigured?, parts, isChoice, isConcat, isSome_unconfiguredItems?_iff items]
  | dict entries => by
      simp [unconfigured?, parts, isChoice, isConcat, isSome_unconfiguredEntries?_iff entries]
  | select _ _ => by simp [unconfigured?, parts, isChoice]
  | concat _ => by simp [unconfigured?, parts, isConcat]

theorem isSome_unconfiguredItems?_iff : ∀ es : List AttrExpr,
    (unconfiguredItems? es).isSome ↔
      ∀ x ∈ partsOfItems es, x.isChoice = false ∧ x.isConcat = false
  | [] => by simp [unconfiguredItems?, partsOfItems]
  | e :: es => by
      rw [partsOfItems, List.forall_mem_append, ← isSome_unconfigured?_iff e,
        ← isSome_unconfiguredItems?_iff es, unconfiguredItems?]
      cases unconfigured? e <;> cases unconfiguredItems? es <;> simp

theorem isSome_unconfiguredEntries?_iff : ∀ es : List (AttrExpr × AttrExpr),
    (unconfiguredEntries? es).isSome ↔
      ∀ x ∈ partsOfEntries es, x.isChoice = false ∧ x.isConcat = false
  | [] => by simp [unconfiguredEntries?, partsOfEntries]
  | (k, v) :: es => by
      rw [partsOfEntries, List.forall_mem_append, List.forall_mem_append,
        ← isSome_unconfigured?_iff k, ← isSome_unconfigured?_iff v,
        ← isSome_unconfiguredEntries?_iff es, unconfiguredEntries?]
      cases unconfigured? k <;> cases unconfigured? v <;> cases unconfiguredEntries? es <;> simp

end

/-- An expression without choices has a value without a context exactly if it has that value in any
given context and contains no concatenation. So the two agree for exactly those expressions that
contain no concatenation or have no value in any context. -/
theorem choiceFree_unconfigured?_iff {e : AttrExpr} (free : e.ChoiceFree) (ctx : ConditionContext) :
    (∀ v, e.unconfigured? = some v ↔ e.configure ctx = .ok v ∧ e.ConcatFree) ∧
      ((∀ v, e.unconfigured? = some v ↔ e.configure ctx = .ok v) ↔
        e.ConcatFree ∨ ∀ ctx' v, e.configure ctx' ≠ .ok v) := by
  have hsome : e.unconfigured?.isSome ↔ e.ConcatFree := by
    rw [isSome_unconfigured?_iff]
    exact ⟨fun h x hx => (h x hx).2, fun h x hx => ⟨free x hx, h x hx⟩⟩
  have hvalue : ∀ v, e.unconfigured? = some v ↔ e.configure ctx = .ok v ∧ e.ConcatFree := by
    refine fun v => ⟨fun h => ⟨configure_eq_of_unconfigured? ctx e h, ?_⟩, fun ⟨h, hconcat⟩ => ?_⟩
    · exact hsome.mp (by rw [h]; rfl)
    · obtain ⟨w, hw⟩ := Option.isSome_iff_exists.mp (hsome.mpr hconcat)
      rw [configure_eq_of_unconfigured? ctx e hw] at h
      rw [hw, Except.ok.inj h]
  refine ⟨hvalue, fun hagree => ?_, fun hcases v => (hvalue v).trans ⟨And.left, fun h => ⟨h, ?_⟩⟩⟩
  · by_cases hconcat : e.ConcatFree
    · exact .inl hconcat
    · refine .inr fun ctx' v hv => hconcat ?_
      have hok := (free.configure_eq_ok_iff ctx' ctx v).mp hv
      exact ((hvalue v).mp ((hagree v).mpr hok)).2
  · exact hcases.resolve_right fun hnever => hnever ctx v h

end AttrExpr

namespace UnconfiguredSample

/-! A dictionary of lists, and two texts that are written as a concatenation. -/

def context : ConditionContext := .ofSettings (.ofOptions {}) []

def environment : AttrExpr :=
  .dict [(.text "flags", .list [.text "-O2", .bool true]), (.text "inputs", .list [])]

def joined : AttrExpr := .concat [.text "a", .text "b"]

theorem environment_unconfigured :
    environment.ChoiceFree ∧ environment.unconfigured? =
      some (.dict [(.text "flags", .list [.text "-O2", .bool true]), (.text "inputs", .list [])]) :=
  have free : environment.ChoiceFree := by decide +kernel
  ⟨free, ((AttrExpr.choiceFree_unconfigured?_iff free context).1 _).mpr
    ⟨by decide +kernel, by decide +kernel⟩⟩

/-- Two texts that are put together have a value, but not without a context. -/
theorem joined_differs :
    joined.ChoiceFree ∧ joined.configure context = .ok (.text "ab") ∧
      joined.unconfigured? = none ∧
      ¬ ∀ v, joined.unconfigured? = some v ↔ joined.configure context = .ok v :=
  ⟨by decide +kernel, rfl, rfl, fun hagree => nomatch (hagree (.text "ab")).mpr rfl⟩

end UnconfiguredSample
end BuildAnalysis
