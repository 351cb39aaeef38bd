import BuildAnalysis.Proofs.Toolchain.Resolution

/-!
# What a resolution comes to

The result of a resolution, success or failure, is settled by what the workspace registers, without
regard to how the search goes about it. A resolution comes out with the first candidate that serves
every type, and with the first toolchain of each type there. It blames the types that no candidate
serves if there are candidates and such types, and the platforms in all other cases; unknown
platforms are reported before anything else.
-/
namespace BuildAnalysis.ToolchainRegistry

inductive Targets (r : ToolchainRegistry) (k : ToolchainKey) : SortedSet Label → Prop
  | untargeted (none : k.targetPlatform = none) : Targets r k ∅
  | registered {p : Label} {target : SortedSet Label} (platform : k.targetPlatform = some p)
      (known : r.targetPlatforms.get? p = some target) : Targets r k target

/-- A platform with the constraints asked for, the first with its label if a label is forced. -/
structure Candidate (r : ToolchainRegistry) (k : ToolchainKey) (p : ExecutionPlatform) : Prop where
  registered : p ∈ r.executionPlatforms
  constrained : ∀ l ∈ k.constraints, l ∈ p.constraints
  forced : ∀ forced, k.platform = some forced →
    First (fun q => q.label = forced) r.executionPlatforms p

/-- Some registered toolchain of the type can be used on the platform. -/
def Serves (r : ToolchainRegistry) (target : SortedSet Label) (p : ExecutionPlatform)
    (type : Label) : Prop :=
  ∃ t, r.Suits type p.constraints target t

/-- A candidate that serves every type asked for. -/
def Viable (r : ToolchainRegistry) (k : ToolchainKey) (target : SortedSet Label)
    (p : ExecutionPlatform) : Prop :=
  r.Candidate k p ∧ ∀ type ∈ k.types, r.Serves target p type

/-- The map has the types asked for, each with the first toolchain that can be used on the
platform. -/
def Implements (r : ToolchainRegistry) (k : ToolchainKey) (target : SortedSet Label)
    (p : ExecutionPlatform) (m : SortedMap Label Label) : Prop :=
  ∀ type i, m.get? type = some i ↔ type ∈ k.types ∧
    ∃ t, First (r.Suits type p.constraints target) r.toolchains t ∧ t.implementation = i

inductive Resolves (r : ToolchainRegistry) (k : ToolchainKey) :
    Except ToolchainError ToolchainContext → Prop
  | unknownTarget {p : Label} (platform : k.targetPlatform = some p)
      (unknown : r.targetPlatforms.get? p = none) :
      Resolves r k (.error (.unknownTargetPlatform p))
  | unknownExecution {target : SortedSet Label} {forced : Label} (targets : r.Targets k target)
      (platform : k.platform = some forced)
      (unknown : ∀ p ∈ r.executionPlatforms, p.label ≠ forced) :
      Resolves r k (.error (.unknownExecutionPlatform forced))
  | served {target : SortedSet Label} {p : ExecutionPlatform} {m : SortedMap Label Label}
      (targets : r.Targets k target)
      (first : First (r.Viable k target) r.executionPlatforms p)
      (implements : r.Implements k target p m) :
      Resolves r k (.ok ⟨some p.label, k.targetPlatform, m⟩)
  /-- Nothing is asked for, and there are no platforms to offer. -/
  | nothing {target : SortedSet Label} (targets : r.Targets k target)
      (unforced : k.platform = none) (platforms : r.executionPlatforms = [])
      (types : ∀ type, type ∉ k.types) :
      Resolves r k (.ok ⟨none, k.targetPlatform, ∅⟩)
  | noToolchains {target : SortedSet Label} {types : List Label} (targets : r.Targets k target)
      (candidates : ∃ p, r.Candidate k p) (ordered : types.Sublist k.types.members)
      (unserved : ∀ type, type ∈ types ↔
        type ∈ k.types ∧ ∀ p, r.Candidate k p → ¬ r.Serves target p type)
      (some_unserved : types ≠ []) :
      Resolves r k (.error (.noToolchains types))
  | noPlatform {target : SortedSet Label} (targets : r.Targets k target)
      (known : ∀ forced, k.platform = some forced → ∃ p ∈ r.executionPlatforms, p.label = forced)
      (asked : r.executionPlatforms = [] → ∃ type, type ∈ k.types)
      (none_viable : ∀ p, ¬ r.Viable k target p)
      (all_served : (∃ p, r.Candidate k p) →
        ∀ type ∈ k.types, ∃ p, r.Candidate k p ∧ r.Serves target p type) :
      Resolves r k (.error (.noPlatform k.types.members k.targetPlatform))

variable {r : ToolchainRegistry} {k : ToolchainKey} {execution target : SortedSet Label}

section Target

theorem targetConstraints_eq_ok_iff :
    r.targetConstraints k = .ok target ↔ r.Targets k target := by
  unfold targetConstraints
  constructor
  · intro h
    split at h
    next hnone => exact Except.ok.inj h ▸ .untargeted hnone
    next p hp =>
      split at h
      next known => exact Except.ok.inj h ▸ .registered hp known
      next => cases h
  · rintro (hnone | ⟨hp, known⟩)
    · rw [hnone]
    · simp only [hp, known]

theorem targetConstraints_eq_error {e : ToolchainError} (h : r.targetConstraints k = .error e) :
    ∃ p, k.targetPlatform = some p ∧ r.targetPlatforms.get? p = none ∧
      e = .unknownTargetPlatform p := by
  unfold targetConstraints at h
  split at h
  next => cases h
  next p hp =>
    split at h
    next => cases h
    next unknown => exact ⟨p, hp, unknown, (Except.error.inj h).symm⟩

end Target

section Candidates

theorem offered_eq_error {e : ToolchainError} (h : r.offered k = .error e) :
    ∃ forced, k.platform = some forced ∧ (∀ p ∈ r.executionPlatforms, p.label ≠ forced) ∧
      e = .unknownExecutionPlatform forced := by
  unfold offered at h
  split at h
  next => cases h
  next forced hforced =>
    split at h
    next => cases h
    next unknown =>
      refine ⟨forced, hforced, fun p hp => ?_, (Except.error.inj h).symm⟩
      simpa using List.find?_eq_none.mp unknown p hp

theorem known_of_offered {ps : List ExecutionPlatform} (h : r.offered k = .ok ps) (forced : Label)
    (hforced : k.platform = some forced) : ∃ p ∈ r.executionPlatforms, p.label = forced := by
  rcases offered_eq_ok h with ⟨hnone, _⟩ | ⟨_, p, hforced', hp, _⟩
  · cases hnone.symm.trans hforced
  · obtain rfl := Option.some.inj (hforced.symm.trans hforced')
    exact ⟨p, hp.mem, hp.holds⟩

theorem offered_of_forall_known
    (known : ∀ forced, k.platform = some forced → ∃ p ∈ r.executionPlatforms, p.label = forced) :
    ∃ ps, r.offered k = .ok ps := by
  cases h : r.offered k with
  | ok ps => exact ⟨ps, rfl⟩
  | error e =>
      obtain ⟨forced, hforced, unknown, _⟩ := offered_eq_error h
      obtain ⟨p, hp, hlabel⟩ := known forced hforced
      exact absurd hlabel (unknown p hp)

theorem Candidate.known {p : ExecutionPlatform} (h : r.Candidate k p) (forced : Label)
    (hforced : k.platform = some forced) : ∃ p ∈ r.executionPlatforms, p.label = forced :=
  ⟨p, h.registered, (h.forced forced hforced).holds⟩

/-- Where a label is forced, the first platform with the label is the only one to consider. -/
theorem candidate_iff_of_forced {forced : Label} {p q : ExecutionPlatform}
    (hforced : k.platform = some forced)
    (hp : First (fun q => q.label = forced) r.executionPlatforms p) :
    r.Candidate k q ↔ q = p ∧ isSuitable k q = true := by
  rw [isSuitable, SortedSet.isSubset_iff]
  constructor
  · exact fun h => ⟨(h.forced forced hforced).unique hp, h.constrained⟩
  · rintro ⟨rfl, h⟩
    refine ⟨hp.mem, h, fun forced' hforced' => ?_⟩
    exact Option.some.inj (hforced.symm.trans hforced') ▸ hp

variable {ps : List ExecutionPlatform} (hoffered : r.offered k = .ok ps)
include hoffered

/-- Among what is offered, the first suitable platform with a property is the first candidate with
it among all that is registered. -/
theorem first_suitable {P : ExecutionPlatform → Prop} {p : ExecutionPlatform} :
    First P (ps.filter (isSuitable k)) p ↔
      First (fun q => r.Candidate k q ∧ P q) r.executionPlatforms p := by
  rw [first_filter]
  rcases offered_eq_ok hoffered with ⟨hnone, rfl⟩ | ⟨forced, only, hforced, hfirst, rfl⟩
  · refine first_congr fun q hq => and_congr_left' ?_
    rw [isSuitable, SortedSet.isSubset_iff]
    exact ⟨fun h => ⟨hq, h, by simp [hnone]⟩, Candidate.constrained⟩
  · simp only [candidate_iff_of_forced hforced hfirst]
    constructor
    · intro h
      obtain rfl := List.mem_singleton.mp h.mem
      exact first_of_unique hfirst.mem ⟨⟨rfl, h.holds.1⟩, h.holds.2⟩ fun q hq => hq.1.1
    · intro h
      obtain ⟨⟨rfl, hsuitable⟩, hP⟩ := h.holds
      exact .here ⟨hsuitable, hP⟩

theorem mem_suitable {p : ExecutionPlatform} :
    p ∈ ps.filter (isSuitable k) ↔ r.Candidate k p := by
  constructor
  · intro hp
    obtain ⟨q, hq⟩ := exists_first (P := (· = p)) ⟨p, hp, rfl⟩
    exact hq.holds ▸ ((first_suitable hoffered).mp hq).holds.1
  · intro hp
    have hfirst : First (fun q => r.Candidate k q ∧ q = p) r.executionPlatforms p :=
      first_of_unique hp.registered ⟨hp, rfl⟩ fun q hq => hq.2
    exact ((first_suitable hoffered).mpr hfirst).mem

end Candidates

section Service

theorem isSome_toolchain?_iff {type : Label} :
    (r.toolchain? type execution target).isSome = true ↔ ∃ t, r.Suits type execution target t := by
  rw [Option.isSome_iff_exists]
  constructor
  · rintro ⟨t, ht⟩
    exact ⟨t, (toolchain?_eq_some_iff.mp ht).holds⟩
  · rintro ⟨t, ht⟩
    obtain ⟨first, hfirst⟩ := exists_first ⟨t, ht.registered, ht⟩
    exact ⟨first, toolchain?_eq_some_iff.mpr hfirst⟩

/-- All types are served, or it is a type without a toolchain at which the walk ends. -/
theorem exists_serve_iff {types : List Label} {found : SortedMap Label Label} :
    (∃ m, r.serve execution target types found = .ok m) ↔
      ∀ type ∈ types, ∃ t, r.Suits type execution target t := by
  induction types generalizing found with
  | nil => simp [serve]
  | cons type types ih =>
      rw [List.forall_mem_cons, ← isSome_toolchain?_iff, serve]
      split
      next hnone => simp [hnone]
      next t ht => simp [ht, ih]

theorem implements_of_serve {p : ExecutionPlatform} {m : SortedMap Label Label}
    (h : r.serve p.constraints target k.types.members ∅ = .ok m) : r.Implements k target p m := by
  intro type i
  have hserved := get?_serve h type
  by_cases htype : type ∈ k.types.members
  · rw [if_pos htype] at hserved
    obtain ⟨t, ht, hget⟩ := hserved
    have hfirst := toolchain?_eq_some_iff.mp ht
    rw [hget, Option.some.injEq]
    constructor
    · exact fun hi => ⟨htype, t, hfirst, hi⟩
    · rintro ⟨_, t', ht', rfl⟩
      rw [hfirst.unique ht']
  · rw [if_neg htype] at hserved
    rw [hserved]
    exact iff_of_false nofun fun h => htype h.1

theorem Implements.unique {p : ExecutionPlatform} {m n : SortedMap Label Label}
    (hm : r.Implements k target p m) (hn : r.Implements k target p n) : m = n :=
  SortedMap.eq_of_get? fun type => Option.ext fun i => (hm type i).trans (hn type i).symm

theorem serve_eq_ok_iff {p : ExecutionPlatform} {m : SortedMap Label Label} :
    r.serve p.constraints target k.types.members ∅ = .ok m ↔
      (∀ type ∈ k.types, r.Serves target p type) ∧ r.Implements k target p m := by
  constructor
  · exact fun h => ⟨exists_serve_iff.mp ⟨m, h⟩, implements_of_serve h⟩
  · rintro ⟨hserves, hm⟩
    obtain ⟨n, hn⟩ := exists_serve_iff.mpr hserves
    exact (implements_of_serve hn).unique hm ▸ hn

theorem firstServed?_eq_some_iff {ps : List ExecutionPlatform} {c : ToolchainContext} :
    r.firstServed? k target ps = some c ↔
      ∃ p m, First (fun p => ∀ type ∈ k.types, r.Serves target p type) ps p ∧
        r.Implements k target p m ∧ c = ⟨some p.label, k.targetPlatform, m⟩ := by
  induction ps with
  | nil => simp [firstServed?]
  | cons q ps ih =>
      unfold firstServed?
      split
      next m hm =>
        obtain ⟨hserves, himplements⟩ := serve_eq_ok_iff.mp hm
        rw [Option.some.injEq]
        constructor
        · rintro rfl
          exact ⟨q, m, .here hserves, himplements, rfl⟩
        · rintro ⟨p, n, hfirst, hn, rfl⟩
          obtain rfl := hfirst.unique (.here hserves)
          rw [himplements.unique hn]
      next type hfailed =>
        have hskipped : ¬ ∀ type ∈ k.types, r.Serves target q type := fun hserves => by
          obtain ⟨m, hm⟩ := exists_serve_iff.mpr hserves
          cases hfailed.symm.trans hm
        simp only [ih, first_cons, hskipped, false_and, false_or, not_false_eq_true, true_and]

theorem mem_unserved {ps : List ExecutionPlatform} {type : Label} :
    type ∈ r.unserved k target ps ↔ type ∈ k.types ∧ ∀ p ∈ ps, ¬ r.Serves target p type := by
  unfold unserved
  rw [List.mem_filter]
  refine and_congr_right fun _ => ?_
  rw [Bool.not_eq_true', ← Bool.not_eq_true, List.any_eq_true, not_exists]
  simp only [isSome_toolchain?_iff, not_and]
  rfl

end Service

section Search

variable {ps : List ExecutionPlatform} (hoffered : r.offered k = .ok ps)
include hoffered

theorem nothing_asked_iff :
    ((ps.filter (isSuitable k)).isEmpty && k.types.isEmpty && r.executionPlatforms.isEmpty) = true ↔
      r.executionPlatforms = [] ∧ ∀ type, type ∉ k.types := by
  have htypes : k.types.isEmpty = true ↔ ∀ type, type ∉ k.types :=
    List.isEmpty_iff.trans List.eq_nil_iff_forall_not_mem
  rw [Bool.and_eq_true, Bool.and_eq_true, htypes, List.isEmpty_iff, List.isEmpty_iff]
  constructor
  · exact fun h => ⟨h.2, h.1.2⟩
  · refine fun h => ⟨⟨List.eq_nil_iff_forall_not_mem.mpr fun p hp => ?_, h.2⟩, h.1⟩
    have hregistered := ((mem_suitable hoffered).mp hp).registered
    rw [h.1] at hregistered
    cases hregistered

theorem served_iff {c : ToolchainContext} :
    r.firstServed? k target (ps.filter (isSuitable k)) = some c ↔
      ∃ p m, First (r.Viable k target) r.executionPlatforms p ∧ r.Implements k target p m ∧
        c = ⟨some p.label, k.targetPlatform, m⟩ := by
  rw [firstServed?_eq_some_iff]
  simp only [first_suitable hoffered]
  rfl

theorem not_served_iff :
    r.firstServed? k target (ps.filter (isSuitable k)) = none ↔ ∀ p, ¬ r.Viable k target p := by
  rw [Option.eq_none_iff_forall_ne_some]
  constructor
  · intro h p hp
    obtain ⟨q, hq⟩ := exists_first ⟨p, hp.1.registered, hp⟩
    obtain ⟨m, hm⟩ := exists_serve_iff.mpr hq.holds.2
    exact h _ ((served_iff hoffered).mpr ⟨q, m, hq, implements_of_serve hm, rfl⟩)
  · intro h c hc
    obtain ⟨p, _, hp, _⟩ := (served_iff hoffered).mp hc
    exact h p hp.holds

theorem mem_unserved_suitable {type : Label} :
    type ∈ r.unserved k target (ps.filter (isSuitable k)) ↔
      type ∈ k.types ∧ ∀ p, r.Candidate k p → ¬ r.Serves target p type := by
  simp only [mem_unserved, mem_suitable hoffered]

theorem blames_types_iff :
    (!(ps.filter (isSuitable k)).isEmpty &&
        !(r.unserved k target (ps.filter (isSuitable k))).isEmpty) = true ↔
      (∃ p, r.Candidate k p) ∧
        ∃ type ∈ k.types, ∀ p, r.Candidate k p → ¬ r.Serves target p type := by
  simp only [Bool.and_eq_true, Bool.not_eq_true', List.isEmpty_eq_false_iff_exists_mem,
    mem_unserved_suitable hoffered, mem_suitable hoffered]

end Search

/-- Every way in which a resolution ends is accounted for. -/
theorem resolves_resolve : r.Resolves k (r.resolve k) := by
  unfold resolve
  split
  next e herror =>
    obtain ⟨p, platform, unknown, rfl⟩ := targetConstraints_eq_error herror
    exact .unknownTarget platform unknown
  next target htarget =>
    have targets := targetConstraints_eq_ok_iff.mp htarget
    split
    next e herror =>
      obtain ⟨forced, platform, unknown, rfl⟩ := offered_eq_error herror
      exact .unknownExecution targets platform unknown
    next ps hoffered =>
      dsimp only
      split
      next hnothing =>
        obtain ⟨platforms, types⟩ := (nothing_asked_iff hoffered).mp hnothing
        rcases offered_eq_ok hoffered with ⟨unforced, _⟩ | ⟨_, p, _, hp, _⟩
        · exact .nothing targets unforced platforms types
        · exact absurd platforms (List.ne_nil_of_mem hp.mem)
      next hnothing =>
        split
        next c hserved =>
          obtain ⟨p, m, first, implements, rfl⟩ := (served_iff hoffered).mp hserved
          exact .served targets first implements
        next hnone =>
          have none_viable := (not_served_iff hoffered).mp hnone
          split
          next hblamed =>
            obtain ⟨candidates, type, htype⟩ := (blames_types_iff hoffered).mp hblamed
            have hmem := (mem_unserved_suitable hoffered).mpr htype
            exact .noToolchains targets candidates List.filter_sublist
              (fun type => mem_unserved_suitable hoffered) (List.ne_nil_of_mem hmem)
          next hblamed =>
            rw [blames_types_iff hoffered] at hblamed
            rw [nothing_asked_iff hoffered] at hnothing
            push Not at hblamed hnothing
            exact .noPlatform targets (known_of_offered hoffered) hnothing none_viable hblamed

/-- The relation leaves nothing open: each of its cases decides what the search finds. -/
theorem resolve_of_resolves {result : Except ToolchainError ToolchainContext}
    (h : r.Resolves k result) : r.resolve k = result := by
  cases h with
  | unknownTarget platform unknown =>
      simp only [resolve, targetConstraints, platform, unknown]
  | @unknownExecution target forced targets platform unknown =>
      have hfind : r.executionPlatforms.find? (fun p => p.label == forced) = none := by
        simpa using unknown
      simp only [resolve, targetConstraints_eq_ok_iff.mpr targets, offered, platform, hfind]
  | served targets first implements =>
      obtain ⟨ps, hoffered⟩ := offered_of_forall_known first.holds.1.known
      have hserved := (served_iff hoffered).mpr ⟨_, _, first, implements, rfl⟩
      have hnothing := mt (nothing_asked_iff hoffered).mp fun h =>
        List.ne_nil_of_mem first.mem h.1
      simp only [resolve, targetConstraints_eq_ok_iff.mpr targets, hoffered, if_neg hnothing,
        hserved]
  | nothing targets unforced platforms types =>
      have hoffered : r.offered k = .ok r.executionPlatforms := by rw [offered, unforced]
      have hnothing := (nothing_asked_iff hoffered).mpr ⟨platforms, types⟩
      simp only [resolve, targetConstraints_eq_ok_iff.mpr targets, hoffered, if_pos hnothing]
  | @noToolchains target types targets candidates ordered unserved some_unserved =>
      obtain ⟨p, hp⟩ := candidates
      obtain ⟨ps, hoffered⟩ := offered_of_forall_known hp.known
      obtain ⟨type, htype⟩ := List.exists_mem_of_ne_nil types some_unserved
      obtain ⟨hasked, hunserved⟩ := (unserved type).mp htype
      have hnothing := mt (nothing_asked_iff hoffered).mp fun h => h.2 type hasked
      have hnone := (not_served_iff hoffered).mpr fun q hq => hunserved q hq.1 (hq.2 type hasked)
      have hblamed := (blames_types_iff hoffered).mpr ⟨⟨p, hp⟩, type, hasked, hunserved⟩
      -- Picked from the same list in its order, the types are known by their membership.
      have hsame : r.unserved k target (ps.filter (isSuitable k)) = types :=
        SortedSet.eq_of_sublist List.filter_sublist ordered fun type =>
          (mem_unserved_suitable hoffered).trans (unserved type).symm
      rw [hsame] at hblamed
      simp only [resolve, targetConstraints_eq_ok_iff.mpr targets, hoffered, if_neg hnothing,
        hnone, hsame, if_pos hblamed]
  | noPlatform targets known asked none_viable all_served =>
      obtain ⟨ps, hoffered⟩ := offered_of_forall_known known
      have hnone := (not_served_iff hoffered).mpr none_viable
      have hnothing := mt (nothing_asked_iff hoffered).mp (by push Not; exact asked)
      have hblamed := mt (blames_types_iff hoffered).mp (by push Not; exact all_served)
      simp only [resolve, targetConstraints_eq_ok_iff.mpr targets, hoffered, if_neg hnothing,
        hnone, if_neg hblamed]

/-- The result of a resolution is the one that the registered platforms and toolchains call for. -/
theorem resolve_eq_iff (r : ToolchainRegistry) (k : ToolchainKey)
    (result : Except ToolchainError ToolchainContext) :
    r.resolve k = result ↔ r.Resolves k result := by
  constructor
  · rintro rfl
    exact resolves_resolve
  · exact resolve_of_resolves

theorem Viable.provides {p : ExecutionPlatform} {m : SortedMap Label Label}
    (h : r.Viable k target p) (himplements : r.Implements k target p m) :
    r.Provides target (· ∈ k.types) (· ∈ k.constraints) p ⟨some p.label, k.targetPlatform, m⟩ where
  registered := h.1.registered
  chosen := rfl
  constrained := h.1.constrained
  complete type := by
    constructor
    · intro htype
      obtain ⟨t, ht⟩ := h.2 type htype
      obtain ⟨first, hfirst⟩ := exists_first ⟨t, ht.registered, ht⟩
      exact ⟨_, (himplements type _).mpr ⟨htype, first, hfirst, rfl⟩⟩
    · rintro ⟨i, hi⟩
      exact ((himplements type i).mp hi).1
  usable type i hi := by
    obtain ⟨_, t, hfirst, ht⟩ := (himplements type i).mp hi
    exact ⟨t, hfirst.holds, ht⟩

theorem resolve_eq_ok {c : ToolchainContext} (h : r.resolve k = .ok c) :
    ∃ target, r.targetConstraints k = .ok target ∧
      ((c = ⟨none, k.targetPlatform, ∅⟩ ∧ r.executionPlatforms = [] ∧ k.types.members = [] ∧
          k.platform = none) ∨
        ∃ p, r.Provides target (· ∈ k.types) (· ∈ k.constraints) p c ∧
          ∀ forced, k.platform = some forced → p.label = forced) := by
  have hresolves : r.Resolves k (.ok c) := h ▸ resolves_resolve
  cases hresolves with
  | @served target p _ targets first implements =>
      refine ⟨target, targetConstraints_eq_ok_iff.mpr targets, .inr ⟨p, ?_⟩⟩
      exact ⟨first.holds.provides implements, fun forced hforced =>
        (first.holds.1.forced forced hforced).holds⟩
  | @nothing target targets unforced platforms types =>
      have hmembers : k.types.members = [] := List.eq_nil_iff_forall_not_mem.mpr types
      exact ⟨target, targetConstraints_eq_ok_iff.mpr targets,
        .inl ⟨rfl, platforms, hmembers, unforced⟩⟩

end BuildAnalysis.ToolchainRegistry
