import BuildAnalysis.Analysis.Permit
import Mathlib.Algebra.Ring.Nat
import Mathlib.Logic.Relation

/-!
# What the pool of permits keeps

No step makes or loses a permit: those in the pool and those that are held are always as many as at
first. Any number of evaluations share a pool. Each of them enters its section, leaves it for a
while each time that it waits for requested values, and drops it in the end; they take turns in any
order, and an evaluation whose next step would block waits. Then a section holds its permit exactly
while it works, so that whoever waits for a permit holds none, some evaluation can always go on, and
in the end all permits are back.
-/
namespace BuildAnalysis

open Relation (ReflTransGen)

theorem sum_map_set {α : Type} (f : α → Nat) {l : List α} {i : Nat} {a : α} (h : l[i]? = some a)
    (b : α) : ((l.set i b).map f).sum + f a = (l.map f).sum + f b := by
  induction l generalizing i with
  | nil => cases h
  | cons x xs ih =>
      cases i with
      | zero =>
          obtain rfl := Option.some.inj h
          simp only [List.set_cons_zero, List.map_cons, List.sum_cons]
          omega
      | succ i =>
          have hrest := ih h
          simp only [List.set_cons_succ, List.map_cons, List.sum_cons]
          omega

namespace Permits

variable {p q : Permits}

theorem exists_acquire (h : p.available ≠ 0) : ∃ q, p.acquire? = some q := ⟨_, if_neg h⟩

theorem acquire?_eq_some (h : p.acquire? = some q) : p.available = q.available + 1 := by
  rw [acquire?] at h
  split at h
  · cases h
  · cases h
    dsimp only
    omega

end Permits

namespace Holder

@[simp] theorem held_permit : held .permit = 1 := rfl

@[simp] theorem held_section (holding : Bool) : held (.section holding) = holding.toNat := by
  cases holding <;> rfl

@[simp] theorem held_dropped : held .dropped = 0 := rfl

end Holder

namespace PermitPool

variable {p q : PermitPool} {i : Nat}

def held (p : PermitPool) : Nat := (p.holders.map Holder.held).sum

def total (p : PermitPool) : Nat := p.permits.available + p.held

@[simp] theorem total_ofCapacity (n : Nat) : (ofCapacity n).total = max n 1 := rfl

theorem total_grant {h : Holder} (hh : h.held = 1) (hg : p.grant h = some q) :
    q.total = p.total := by
  obtain ⟨permits, hpermits, rfl⟩ := Option.map_eq_some_iff.mp hg
  have havailable := Permits.acquire?_eq_some hpermits
  simp only [total, held, List.map_append, List.sum_append, List.map_cons, List.map_nil,
    List.sum_cons, List.sum_nil, hh]
  omega

theorem held_set {h : Holder} (hi : p.holders[i]? = some h) (permits : Permits) (h' : Holder) :
    (⟨permits, p.holders.set i h'⟩ : PermitPool).held + h.held = p.held + h'.held :=
  sum_map_set Holder.held hi h'

theorem total_giveBack (p : PermitPool) (i : Nat) {h : Holder} (hh : h.held = 0) :
    (p.giveBack i h).total = p.total := by
  unfold giveBack
  split
  next hi =>
    have hset := held_set hi p.permits.release h
    simp only [total, Permits.release, Holder.held_permit, hh] at hset ⊢
    omega
  next hi =>
    have hset := held_set hi p.permits.release h
    simp only [total, Permits.release, Holder.held_section, Bool.toNat_true, hh] at hset ⊢
    omega
  next hi =>
    have hset := held_set hi p.permits h
    simp only [total, Holder.held_section, Bool.toNat_false, hh] at hset ⊢
    omega
  next => rfl

/-- No step makes or loses a permit. -/
theorem total_step {step : Step} (h : p.step step = some q) : q.total = p.total := by
  cases step with
  | acquire => exact total_grant rfl h
  | enter => exact total_grant rfl h
  | drop i =>
      cases h
      exact total_giveBack p i rfl
  | pause i =>
      rw [PermitPool.step] at h
      split at h <;> cases h
      · exact total_giveBack p i rfl
      · rfl
  | resume i =>
      rw [PermitPool.step] at h
      split at h
      next hi =>
        obtain ⟨permits, hpermits, rfl⟩ := Option.map_eq_some_iff.mp h
        have havailable := Permits.acquire?_eq_some hpermits
        have hset := held_set hi permits (.section true)
        simp only [total, Holder.held_section, Bool.toNat_true, Bool.toNat_false] at hset ⊢
        omega
      next =>
        cases h
        rfl

theorem held_of_waiting {step : Step} (h : p.step step = none)
    (hstep : step ∈ [.drop i, .pause i, .resume i]) {holder : Holder}
    (hi : p.holders[i]? = some holder) : holder.held = 0 := by
  simp only [List.mem_cons, List.not_mem_nil, or_false] at hstep
  rcases hstep with rfl | rfl | rfl
  · cases h
  · rw [PermitPool.step] at h
    split at h <;> cases h
  · rw [PermitPool.step, hi] at h
    cases holder with
    | permit => cases h
    | dropped => rfl
    | «section» holding =>
        cases holding with
        | true => cases h
        | false => rfl

end PermitPool

inductive Phase where
  | working
  /-- It waits for requested values. -/
  | fetching
  /-- It has dropped its section. -/
  | ended
  deriving DecidableEq

namespace Phase

def holder : Phase → Holder
  | working => .section true
  | fetching => .section false
  | ended => .dropped

/-- How many steps it is to the end without further requests. -/
def remaining : Phase → Nat
  | working => 1
  | fetching => 2
  | ended => 0

end Phase

/-- Evaluations that share a pool: some have not begun yet, the others are listed by their sections,
in the order in which they entered. -/
structure Evaluations where
  pool : PermitPool
  outside : Nat
  phases : List Phase := []

namespace Evaluations

def start (capacity n : Nat) : Evaluations := { pool := .ofCapacity capacity, outside := n }

inductive Step : Evaluations → Evaluations → Prop
  | enter {p q : PermitPool} {n : Nat} {phases : List Phase} (h : p.step .enter = some q) :
      Step ⟨p, n + 1, phases⟩ ⟨q, n, phases ++ [.working]⟩
  | preFetch {p q : PermitPool} {n i : Nat} {phases : List Phase}
      (hi : phases[i]? = some .working) (h : p.step (.pause i) = some q) :
      Step ⟨p, n, phases⟩ ⟨q, n, phases.set i .fetching⟩
  | postFetch {p q : PermitPool} {n i : Nat} {phases : List Phase}
      (hi : phases[i]? = some .fetching) (h : p.step (.resume i) = some q) :
      Step ⟨p, n, phases⟩ ⟨q, n, phases.set i .working⟩
  | leave {p q : PermitPool} {n i : Nat} {phases : List Phase}
      (hi : phases[i]? = some .working) (h : p.step (.drop i) = some q) :
      Step ⟨p, n, phases⟩ ⟨q, n, phases.set i .ended⟩

def Over (s : Evaluations) : Prop := s.outside = 0 ∧ ∀ phase ∈ s.phases, phase = .ended

/-- How many steps it takes at most until all have ended, without further requests. -/
def remaining (s : Evaluations) : Nat := 2 * s.outside + (s.phases.map Phase.remaining).sum

def heldBy (s : Evaluations) (i : Nat) : Nat := (s.pool.holders[i]?.map Holder.held).getD 0

/-- Each section holds what its evaluation is entitled to, and no permit is made or lost. -/
structure Sound (capacity : Nat) (s : Evaluations) : Prop where
  holders : s.pool.holders = s.phases.map Phase.holder
  total : s.pool.total = max capacity 1

theorem sound_start (capacity n : Nat) : Sound capacity (start capacity n) := ⟨rfl, rfl⟩

variable {capacity : Nat} {s t : Evaluations} {i : Nat} {phase : Phase}

theorem Sound.holder (h : s.Sound capacity) (hi : s.phases[i]? = some phase) :
    s.pool.holders[i]? = some phase.holder := by
  rw [h.holders, List.getElem?_map, hi]
  rfl

theorem Sound.step (h : s.Sound capacity) (hstep : Step s t) : t.Sound capacity := by
  cases hstep with
  | enter hq =>
      refine ⟨?_, (PermitPool.total_step hq).trans h.total⟩
      obtain ⟨permits, -, rfl⟩ := Option.map_eq_some_iff.mp hq
      have hholders := h.holders
      dsimp only at hholders ⊢
      rw [hholders, List.map_append, List.map_singleton]
      rfl
  | preFetch hi hq =>
      refine ⟨?_, (PermitPool.total_step hq).trans h.total⟩
      have hholder := h.holder hi
      rw [PermitPool.step, hholder] at hq
      cases hq
      rw [PermitPool.giveBack, hholder, List.map_set, ← h.holders]
      rfl
  | postFetch hi hq =>
      refine ⟨?_, (PermitPool.total_step hq).trans h.total⟩
      rw [PermitPool.step, h.holder hi] at hq
      obtain ⟨permits, -, rfl⟩ := Option.map_eq_some_iff.mp hq
      rw [List.map_set, ← h.holders]
      rfl
  | leave hi hq =>
      refine ⟨?_, (PermitPool.total_step hq).trans h.total⟩
      cases hq
      rw [PermitPool.giveBack, h.holder hi, List.map_set, ← h.holders]
      rfl

theorem Sound.steps (h : s.Sound capacity) (hsteps : ReflTransGen Step s t) :
    t.Sound capacity := by
  induction hsteps with
  | refl => exact h
  | tail _ hstep ih => exact ih.step hstep

theorem held_map_holder (phases : List Phase) :
    ((phases.map Phase.holder).map Holder.held).sum = phases.count .working := by
  induction phases with
  | nil => rfl
  | cons phase phases ih =>
      rw [List.map_cons, List.map_cons, List.sum_cons, ih, List.count_cons]
      cases phase <;> simp [Phase.holder, Nat.add_comm]

/-- The permits that are held are those of the evaluations at work. -/
theorem Sound.held (h : s.Sound capacity) : s.pool.held = s.phases.count .working := by
  rw [PermitPool.held, h.holders, held_map_holder]

/-- While nobody is at work all permits are in the pool. -/
theorem Sound.available (h : s.Sound capacity) (hworking : .working ∉ s.phases) :
    s.pool.permits.available = max capacity 1 := by
  have htotal := h.total
  rwa [PermitPool.total, h.held, List.count_eq_zero.mpr hworking, Nat.add_zero] at htotal

/-- Unless all evaluations have ended, some evaluation can go on, and towards the end. -/
theorem Sound.progress (h : s.Sound capacity) (hover : ¬ s.Over) :
    ∃ t, Step s t ∧ t.remaining < s.remaining := by
  obtain ⟨p, n, phases⟩ := s
  by_cases hworking : .working ∈ phases
  · obtain ⟨i, hi⟩ := List.mem_iff_getElem?.mp hworking
    have hset := sum_map_set Phase.remaining hi .ended
    refine ⟨_, .leave hi rfl, ?_⟩
    simp only [remaining, Phase.remaining] at hset ⊢
    omega
  · have havailable : p.permits.available ≠ 0 := by
      have hall := h.available hworking
      dsimp only at hall
      omega
    obtain ⟨permits, hpermits⟩ := Permits.exists_acquire havailable
    by_cases hfetching : .fetching ∈ phases
    · obtain ⟨i, hi⟩ := List.mem_iff_getElem?.mp hfetching
      have hset := sum_map_set Phase.remaining hi .working
      refine ⟨_, .postFetch (q := ⟨permits, p.holders.set i (.section true)⟩) hi ?_, ?_⟩
      · rw [PermitPool.step, h.holder hi, hpermits]
        rfl
      · simp only [remaining, Phase.remaining] at hset ⊢
        omega
    · cases n with
      | zero =>
          refine absurd ⟨rfl, fun phase hphase => ?_⟩ hover
          cases phase with
          | working => exact absurd hphase hworking
          | fetching => exact absurd hphase hfetching
          | ended => rfl
      | succ n =>
          refine ⟨_, .enter (q := ⟨permits, p.holders ++ [.section true]⟩) ?_, ?_⟩
          · rw [PermitPool.step, PermitPool.grant, hpermits]
            rfl
          · simp only [remaining, List.map_append, List.map_cons, List.map_nil, List.sum_append,
              List.sum_cons, List.sum_nil, Phase.remaining]
            omega

/-- However far they have come, all evaluations can be led to their end. -/
theorem Sound.finish (h : s.Sound capacity) : ∃ t, ReflTransGen Step s t ∧ t.Over := by
  induction hn : s.remaining using Nat.strongRecOn generalizing s with
  | ind n ih =>
      by_cases hover : s.Over
      · exact ⟨s, .refl, hover⟩
      · obtain ⟨t, hstep, hless⟩ := h.progress hover
        obtain ⟨u, hsteps, hu⟩ := ih _ (hn ▸ hless) (h.step hstep) rfl
        exact ⟨u, .head hstep hsteps, hu⟩

structure Kept (capacity : Nat) (s : Evaluations) : Prop where
  conserved : s.pool.permits.available + s.pool.held = max capacity 1
  /-- No more evaluations are at work than there are permits. -/
  bounded : s.phases.count .working ≤ max capacity 1
  single : ∀ i, s.heldBy i ≤ 1
  working : ∀ i, s.phases[i]? = some .working → s.heldBy i = 1
  fetching : ∀ i, s.phases[i]? = some .fetching → s.heldBy i = 0
  ended : ∀ i, s.phases[i]? = some .ended → s.heldBy i = 0
  /-- Whatever the section of an evaluation waits for, it holds nothing meanwhile. -/
  waiting : ∀ i step, step ∈ [.drop i, .pause i, .resume i] → s.pool.step step = none →
    s.heldBy i = 0
  returned : s.Over → s.pool.permits.available = max capacity 1
  progress : ¬ s.Over → ∃ t, Step s t
  finish : ∃ t, ReflTransGen Step s t ∧ t.Over

theorem Sound.heldBy (h : s.Sound capacity) (hi : s.phases[i]? = some phase) :
    s.heldBy i = phase.holder.held := by
  rw [Evaluations.heldBy, h.holder hi]
  rfl

theorem Sound.kept (h : s.Sound capacity) : s.Kept capacity where
  conserved := h.total
  bounded := by
    have htotal := h.total
    rw [PermitPool.total, h.held] at htotal
    omega
  single i := by
    rw [Evaluations.heldBy, h.holders, List.getElem?_map]
    cases s.phases[i]? with
    | none => exact Nat.zero_le 1
    | some phase => cases phase <;> decide
  working i hi := h.heldBy hi
  fetching i hi := h.heldBy hi
  ended i hi := h.heldBy hi
  waiting i step hstep hnone := by
    rw [Evaluations.heldBy]
    cases hi : s.pool.holders[i]? with
    | none => rfl
    | some holder => exact PermitPool.held_of_waiting hnone hstep hi
  returned hover := h.available fun hworking => nomatch hover.2 _ hworking
  progress hover := by
    obtain ⟨t, hstep, -⟩ := h.progress hover
    exact ⟨t, hstep⟩
  finish := h.finish

theorem kept {n : Nat} (h : ReflTransGen Step (start capacity n) s) : s.Kept capacity :=
  ((sound_start capacity n).steps h).kept

end Evaluations
end BuildAnalysis
