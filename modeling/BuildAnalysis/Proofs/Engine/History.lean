import BuildAnalysis.Proofs.Engine.Step

/-!
# Histories of an engine

A history is a list of calls: commits and requests, in any order, in transactions that may be
cancelled at any point. Every history keeps the store consistent. The values of injected keys after
a history are those that its commits assigned last.
-/
namespace BuildAnalysis.Engine

variable {S : KeySpace} {compute : Computation S}

/-- What is asked of an engine. The tasks of a request may be cancelled from outside on their way,
so each request comes with a family of its own. -/
inductive Call (S : KeySpace) where
  /-- Commits changes and begins a transaction. -/
  | commit (changes : List (Change S))
  /-- Goes on in another transaction, which may have been cancelled. -/
  | enter (cancelled : Bool)
  | compute (family : Computation S) (bounds : Bounds) (keepGoing : Bool) (key : S.Key)
  | computeMany (family : Computation S) (bounds : Bounds) (keepGoing : Bool) (keys : List S.Key)
  /-- Runs the task of a key once. -/
  | attempt (family : Computation S) (bounds : Bounds) (key : S.Key)

namespace Call

/-- Only injected keys are set, and the tasks are those of a lawful family, cancelled or not. -/
def Proper (compute : Computation S) : Call S → Prop
  | commit changes => ∀ c ∈ changes, c.Proper
  | enter _ => True
  | .compute family _ _ _ => family.Interrupts compute
  | computeMany family _ _ _ => family.Interrupts compute
  | attempt family _ _ => family.Interrupts compute

/-- The changes that a call commits. -/
def changes : Call S → List (Change S)
  | commit changes => changes
  | _ => []

end Call

namespace Session

/-- The engine after a call. -/
def serve (s : Session S) : Call S → Session S
  | .commit changes => s.begin changes
  | .enter cancelled => { s with cancelled := cancelled, nested := false }
  | .compute family bounds keepGoing k => (s.compute family bounds keepGoing k).2
  | .computeMany family bounds keepGoing ks => (s.computeMany family bounds keepGoing ks).2
  | .attempt family bounds k => (s.attempt family bounds k).2

/-- The engine after a history. -/
def after (s : Session S) (history : List (Call S)) : Session S := history.foldl serve s

theorem computeMany_works {family : Computation S} (h : family.Interrupts compute)
    (bounds : Bounds) (keepGoing : Bool) (ks : List S.Key) (s : Session S) :
    s.Works compute (s.computeMany family bounds keepGoing ks).2 :=
  computeWithin_works h _ _ keepGoing ks s

theorem serve_works {s : Session S} {c : Call S} (hc : c.Proper compute)
    (hnone : ∀ changes, c ≠ .commit changes) : s.Works compute (s.serve c) := by
  cases c with
  | commit changes => exact absurd rfl (hnone changes)
  | enter cancelled => exact .single (.same rfl rfl)
  | compute family bounds keepGoing k => exact computeMany_works hc bounds keepGoing [k] s
  | computeMany family bounds keepGoing ks => exact computeMany_works hc bounds keepGoing ks s
  | attempt family bounds k => exact attempt_works hc bounds k s

theorem serve_steps {s : Session S} {c : Call S} (hc : c.Proper compute) :
    s.Steps compute (s.serve c) := by
  cases c with
  | commit changes => exact s.begin_steps hc
  | _ => exact (serve_works hc (by simp)).steps

theorem after_steps {s : Session S} {history : List (Call S)}
    (h : ∀ c ∈ history, c.Proper compute) : s.Steps compute (s.after history) := by
  induction history generalizing s with
  | nil => exact .refl
  | cons c cs ih =>
      exact (serve_steps (h c List.mem_cons_self)).trans
        (ih fun d hd => h d (List.mem_cons_of_mem _ hd))

/-- Whatever was asked of an engine that began with nothing, its store is consistent. -/
theorem after_consistent {s : Session S} (hs : s.store = {}) {history : List (Call S)}
    (h : ∀ c ∈ history, c.Proper compute) : (s.after history).store.Consistent compute :=
  (after_steps h).consistent (hs ▸ Store.consistent_empty compute)

end Session

/-- The value of a key after a change, by the value before. -/
def Change.assigned (k : S.Key) (before : Option (S.Value k)) : Change S → Option (S.Value k)
  | .inject l v => if h : l = k then some (h ▸ v) else before
  | .invalidate l => if l = k then none else before

@[simp] theorem Change.assigned_inject_self (k : S.Key) (v : S.Value k)
    (before : Option (S.Value k)) : (Change.inject k v).assigned k before = some v :=
  dif_pos rfl

theorem Change.assigned_inject_of_ne {k l : S.Key} (h : l ≠ k) (v : S.Value l)
    (before : Option (S.Value k)) : (Change.inject l v).assigned k before = before := dif_neg h

/-- The value of a key after changes. -/
def Change.assignedBy (k : S.Key) (before : Option (S.Value k)) (cs : List (Change S)) :
    Option (S.Value k) := cs.foldl (assigned k) before

/-- Equality of injected keys' values only identifies equal values. -/
def KeySpace.Faithful (S : KeySpace) : Prop :=
  ∀ k, S.isInjected k = true → ∀ a b : S.Value k, S.sameValue k a b = true → a = b

namespace Session

variable {s t : Session S} {k : S.Key}

theorem Work.value?_injected (h : s.Work compute t) (hk : S.isInjected k = true) :
    t.store.value? k = s.store.value? k := by
  cases h with
  | idle es store world => rw [store]
  | complete l v q computed replay result store world =>
      have hkl : l ≠ k := by
        rintro rfl
        rw [computed] at hk
        cases hk
      rw [store]
      cases hold : s.store.value? l with
      | some old => rw [Store.insertComputed_of_some hold]
      | none =>
          rw [Store.insertComputed_of_none hold, Store.value?, Store.valueIn?_append]
          simp [Store.valueIn?, hkl, Store.value?]

theorem Works.value?_injected (h : s.Works compute t) (hk : S.isInjected k = true) :
    t.store.value? k = s.store.value? k := by
  induction h with
  | refl => rfl
  | tail _ work ih => exact (work.value?_injected hk).trans ih

end Session

namespace Store

variable {s : Store S} {k : S.Key}

theorem value?_apply (hsame : S.Faithful) (hs : s.Consistent compute)
    (hk : S.isInjected k = true) (c : Change S) :
    (s.apply c).1.value? k = c.assigned k (s.value? k) := by
  cases c with
  | inject l v =>
      by_cases hl : l = k
      · subst hl
        rw [Change.assigned_inject_self]
        rcases s.setInjected_eq l v with ⟨⟨old, hold, heq⟩, hset⟩ | hset
        · rw [apply, hset, hold, hsame l hk old v heq]
        · rw [apply, hset, value?_set_self]
      · rw [Change.assigned_inject_of_ne hl]
        rcases s.setInjected_eq l v with ⟨_, hset⟩ | hset
        · rw [apply, hset]
        · rw [apply, hset, value?_set_of_ne v (Ne.symm hl),
            value?_dropComputedFrom (hs.injected_free hk)]
  | invalidate l =>
      rw [apply, invalidate, remove_value?, value?_dropComputedFrom (hs.injected_free hk)]
      by_cases hl : l = k
      · rw [if_pos hl.symm, Change.assigned, if_pos hl]
      · rw [if_neg (Ne.symm hl), Change.assigned, if_neg hl]

theorem value?_applyAll (hsame : S.Faithful) (hs : s.Consistent compute)
    (hk : S.isInjected k = true) {cs : List (Change S)} (proper : ∀ c ∈ cs, c.Proper) :
    (s.applyAll cs).1.value? k = Change.assignedBy k (s.value? k) cs := by
  induction cs generalizing s with
  | nil => rfl
  | cons c cs ih =>
      rw [applyAll_cons, ih (hs.apply (proper c List.mem_cons_self))
        fun d hd => proper d (List.mem_cons_of_mem _ hd), value?_apply hsame hs hk]
      rfl

end Store

namespace Session

variable {s : Session S} {k : S.Key}

/-- After a history an injected key has the value that the commits assigned last. -/
theorem value?_after (hsame : S.Faithful) (hs : s.store.Consistent compute)
    (hk : S.isInjected k = true) {history : List (Call S)}
    (h : ∀ c ∈ history, c.Proper compute) :
    (s.after history).store.value? k =
      Change.assignedBy k (s.store.value? k) (history.flatMap Call.changes) := by
  induction history generalizing s with
  | nil => rfl
  | cons c cs ih =>
      have hc := h c List.mem_cons_self
      have hfirst : (s.serve c).store.value? k =
          Change.assignedBy k (s.store.value? k) c.changes := by
        cases c with
        | commit changes => exact Store.value?_applyAll hsame hs hk hc
        | _ => exact (serve_works hc (by simp)).value?_injected hk
      have hrest := ih ((serve_steps hc).consistent hs) fun d hd => h d (List.mem_cons_of_mem _ hd)
      rw [List.flatMap_cons, Change.assignedBy, List.foldl_append]
      exact hrest.trans (by rw [hfirst]; rfl)

end Session
end BuildAnalysis.Engine
