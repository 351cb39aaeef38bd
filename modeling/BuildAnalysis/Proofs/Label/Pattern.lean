import BuildAnalysis.Label.Pattern
import BuildAnalysis.Proofs.Label.Spelling

/-!
# Spellings of patterns

The ending of a text decides which pattern it is: the three kinds of spellings have no text in
common. The text of a pattern that has been read is always one of them. But it is the text of
another pattern if a single target is selected whose name is the ending that stands for a whole
package. Such a pattern can be read from the text of a package, where the name is left out.
-/
namespace BuildAnalysis.Pattern

variable {f g : Pattern} {l : Label} {p : PackagePath} {text : String} {cs : List Char}

inductive Spelled : Pattern → List Char → Prop
  | everything : Spelled (recursive .root) "//...".toList
  | recursive {p : PackagePath} {pkg : List Char} (h : p.Spelled pkg) :
      Spelled (recursive p) (pkg ++ "/...".toList)
  | package {p : PackagePath} {pkg : List Char} (h : p.Spelled pkg) :
      Spelled (package p) (pkg ++ ":all".toList)
  | exact {l : Label} {cs : List Char} (h : l.Spelled cs) (hbelow : ¬ "/...".toList <:+ cs)
      (hall : ¬ ":all".toList <:+ cs) : Spelled (exact l) cs

theorem map_eq_ok_iff {ε α β : Type} {r : Except ε α} {f : α → β} {b : β} :
    r.map f = .ok b ↔ ∃ a, r = .ok a ∧ f a = b := by
  cases r with
  | error e => simp [Except.map]
  | ok a => simp [Except.map]

theorem spelled_of_parse (h : parse text = .ok f) : Spelled f text.toList := by
  unfold parse at h
  split at h
  next htext =>
    obtain rfl := Except.ok.inj h
    exact htext ▸ .everything
  next =>
    split at h
    next pkg hpkg =>
      obtain ⟨p, hp, rfl⟩ := map_eq_ok_iff.mp h
      rw [PackagePath.parse_eq_ok_iff, String.toList_ofList] at hp
      exact beforeEnding?_eq_some_iff.mp hpkg ▸ .recursive hp
    next hbelow =>
      split at h
      next pkg hpkg =>
        obtain ⟨p, hp, rfl⟩ := map_eq_ok_iff.mp h
        rw [PackagePath.parse_eq_ok_iff, String.toList_ofList] at hp
        exact beforeEnding?_eq_some_iff.mp hpkg ▸ .package hp
      next hall =>
        obtain ⟨l, hl, rfl⟩ := map_eq_ok_iff.mp h
        exact .exact (Label.parse_eq_ok_iff.mp hl) (beforeEnding?_eq_none_iff.mp hbelow)
          (beforeEnding?_eq_none_iff.mp hall)

/-- The two endings are equally long, so no text has both. -/
theorem not_below_append_all (pkg : List Char) : ¬ "/...".toList <:+ pkg ++ ":all".toList := by
  rintro ⟨before, h⟩
  have hlength : "/...".toList.length = ":all".toList.length := by simp
  have hendings : "/...".toList = ":all".toList := List.append_inj_right' h hlength
  revert hendings
  decide

theorem below_ne_everything {pkg : List Char} (h : p.Spelled pkg) :
    pkg ++ "/...".toList ≠ "//...".toList := by
  intro heq
  obtain rfl : pkg = ['/'] := List.append_inj_left' heq rfl
  obtain ⟨n, hn⟩ := h
  cases hn

theorem parse_of_spelled (h : Spelled f text.toList) : parse text = .ok f := by
  have hne : text.toList ≠ "//...".toList → text ≠ "//..." := fun h htext => h (htext ▸ rfl)
  unfold parse
  generalize hcs : text.toList = cs at h
  cases h with
  | everything =>
      obtain rfl : text = "//..." := String.toList_inj.mp hcs
      rfl
  | @recursive p pkg hp =>
      have hpkg : PackagePath.parse (String.ofList pkg) = .ok p := by
        rwa [PackagePath.parse_eq_ok_iff, String.toList_ofList]
      rw [if_neg (hne (hcs ▸ below_ne_everything hp)), beforeEnding?_eq_some_iff.mpr rfl]
      exact map_eq_ok_iff.mpr ⟨p, hpkg, rfl⟩
  | @package p pkg hp =>
      have hbelow := not_below_append_all pkg
      have hpkg : PackagePath.parse (String.ofList pkg) = .ok p := by
        rwa [PackagePath.parse_eq_ok_iff, String.toList_ofList]
      have heverything : pkg ++ ":all".toList ≠ "//...".toList :=
        fun heq => hbelow (heq ▸ by decide)
      rw [if_neg (hne (hcs ▸ heverything)), beforeEnding?_eq_none_iff.mpr hbelow]
      dsimp only
      rw [beforeEnding?_eq_some_iff.mpr rfl]
      exact map_eq_ok_iff.mpr ⟨p, hpkg, rfl⟩
  | @exact l _ hl hbelow hall =>
      have heverything : cs ≠ "//...".toList := fun heq => hbelow (heq ▸ by decide)
      rw [if_neg (hne (hcs ▸ heverything)), beforeEnding?_eq_none_iff.mpr hbelow]
      dsimp only
      rw [beforeEnding?_eq_none_iff.mpr hall]
      exact map_eq_ok_iff.mpr ⟨l, Label.parse_eq_ok_iff.mpr (hcs ▸ hl), rfl⟩

theorem parse_eq_ok_iff : parse text = .ok f ↔ Spelled f text.toList :=
  ⟨spelled_of_parse, parse_of_spelled⟩

/-- A text is the spelling of one pattern only. -/
theorem Spelled.unique (hf : f.Spelled cs) (hg : g.Spelled cs) : f = g := by
  rw [← String.toList_ofList (l := cs), ← parse_eq_ok_iff] at hf hg
  rw [hf] at hg
  exact Except.ok.inj hg

/-! ### The text of a pattern -/

theorem toList_toString_package (p : PackagePath) :
    (toString (package p)).toList = '/' :: '/' :: p.chars ++ ":all".toList := by
  change ((toString p) ++ ":all").toList = _
  rw [String.toList_append, PackagePath.toList_toString]

theorem toList_toString_recursive (p : PackagePath) :
    (toString (recursive p)).toList = '/' :: '/' :: p.chars ++ "/...".toList := by
  change ((toString p) ++ "/...").toList = _
  rw [String.toList_append, PackagePath.toList_toString]

/-- A single target is selected whose name is the ending that stands for a whole package. -/
def NamedAll : Pattern → Prop
  | exact l => l.name.text = "all"
  | _ => False

/-- The pattern that has the same text, as texts are read. -/
def readBack : Pattern → Pattern
  | exact l => if l.name.text = "all" then package l.package else exact l
  | f => f

/-- No name of a single target that has been read ends like the text of a recursive pattern. -/
theorem not_below_name (h : (exact l).Spelled cs) :
    ¬ "/...".toList <:+ l.name.chars := by
  cases h with
  | exact hl hbelow =>
      intro hname
      cases hl with
      | named => exact hbelow ((suffix_append_cons_iff (by decide)).mpr hname)
      | short _ hslash => exact hslash (hname.subset List.mem_cons_self)

theorem all_of_suffix {pkg : List Char} (h : ":all".toList <:+ pkg ++ ':' :: l.name.chars) :
    l.name.text = "all" := by
  obtain ⟨before, h⟩ := h
  have hsplit : splitLast ':' (before ++ ':' :: "all".toList) = some (before, "all".toList) :=
    splitLast_append_cons before (by decide)
  rw [show before ++ ':' :: "all".toList = _ from h,
    splitLast_append_cons pkg l.name.colon_not_mem_chars] at hsplit
  exact String.toList_inj.mp (Prod.mk.inj (Option.some.inj hsplit)).2

theorem spelled_readBack (h : f.Spelled cs) : f.readBack.Spelled (toString f).toList := by
  cases f with
  | package p =>
      rw [toList_toString_package]
      exact .package p.spelled_chars
  | recursive p =>
      rw [toList_toString_recursive]
      exact .recursive p.spelled_chars
  | exact l =>
      have htext : (toString (exact l)).toList =
          '/' :: '/' :: l.package.chars ++ ':' :: l.name.chars := l.toList_toString
      rw [readBack, htext]
      split
      next hname =>
        rw [show l.name.chars = "all".toList from congrArg String.toList hname]
        exact .package l.package.spelled_chars
      next hname =>
        refine .exact (.named l.package.spelled_chars) ?_ fun hall => hname (all_of_suffix hall)
        rw [suffix_append_cons_iff (by decide)]
        exact not_below_name h

theorem parse_toString (h : parse text = .ok f) : parse (toString f) = .ok f.readBack :=
  parse_of_spelled (spelled_readBack (spelled_of_parse h))

theorem readBack_eq_self_iff : f.readBack = f ↔ ¬ f.NamedAll := by
  cases f with
  | package p => exact iff_of_true rfl id
  | recursive p => exact iff_of_true rfl id
  | exact l =>
      rw [readBack, NamedAll]
      split
      next hname => exact iff_of_false (fun h => nomatch h) (not_not_intro hname)
      next hname => exact iff_of_true rfl hname

def otherName : TargetName := ⟨"other", by decide, by decide⟩

theorem selects_readBack_iff : (∀ l, f.readBack.selects l = f.selects l) ↔ ¬ f.NamedAll := by
  constructor
  · intro h hnamed
    cases f with
    | package p => exact hnamed
    | recursive p => exact hnamed
    | exact l =>
        have htext : l.name.text = "all" := hnamed
        have hother := h ⟨l.package, otherName⟩
        rw [readBack, if_pos htext] at hother
        have hname : l.name = otherName := by
          have hselects : (exact l).selects ⟨l.package, otherName⟩ = true := by
            rw [← hother]
            exact beq_self_eq_true l.package
          exact congrArg Label.name (eq_of_beq hselects)
        rw [hname] at htext
        revert htext
        decide
  · intro h l
    rw [readBack_eq_self_iff.mpr h]

theorem namedAll_iff (h : f.Spelled cs) :
    f.NamedAll ↔ ∃ p : PackagePath, p.Spelled cs ∧ p.lastComponent = "all".toList := by
  constructor
  · intro hnamed
    cases h with
    | everything => exact hnamed.elim
    | recursive => exact hnamed.elim
    | package => exact hnamed.elim
    | @exact l _ hl _ hall =>
        have hname : l.name.chars = "all".toList := congrArg String.toList hnamed
        cases hl with
        | named hpkg => exact absurd ⟨_, by rw [hname]; rfl⟩ hall
        | short hpkg hslash hlast =>
            rw [hname] at hslash hlast
            exact ⟨l.package, hpkg, PackagePath.lastComponent_eq_iff.mpr ⟨hslash, hlast⟩⟩
  · rintro ⟨p, hp, hlast⟩
    obtain ⟨hslash, hsuffix⟩ := PackagePath.lastComponent_eq_iff.mp hlast
    have hspelled : (exact ⟨p, ⟨"all", by decide, by decide⟩⟩).Spelled cs := by
      refine .exact (.short hp hslash hsuffix) ?_ ?_
      · intro hbelow
        have hdots : p.lastComponent = "...".toList :=
          hp.lastComponent_eq hbelow (by decide) (by decide)
        rw [hlast] at hdots
        revert hdots
        decide
      · exact fun hall => hp.colon_not_mem (hall.subset List.mem_cons_self)
    rw [h.unique hspelled]
    rfl

/-- The text of a pattern that has been read is read as the pattern itself, and so selects the same
labels, unless the pattern selects a single target named `all`. Such a pattern is read from exactly
the texts of a package that ends in this name, and its own text stands for all targets of that
package. -/
theorem printed_pattern_read_iff (h : parse text = .ok f) :
    parse (toString f) = .ok f.readBack ∧ (f.readBack = f ↔ ¬ f.NamedAll) ∧
      ((∀ l, f.readBack.selects l = f.selects l) ↔ ¬ f.NamedAll) ∧
      (f.NamedAll ↔ ∃ p, PackagePath.parse text = .ok p ∧ p.lastComponent = "all".toList) := by
  refine ⟨parse_toString h, readBack_eq_self_iff, selects_readBack_iff, ?_⟩
  simp only [PackagePath.parse_eq_ok_iff]
  exact namedAll_iff (spelled_of_parse h)

end BuildAnalysis.Pattern

namespace BuildAnalysis.PatternSample

def dots : Label := ⟨⟨"foo/...", by decide, by decide⟩, ⟨"...", by decide, by decide⟩⟩

def all : Label := ⟨⟨"foo/all", by decide, by decide⟩, ⟨"all", by decide, by decide⟩⟩

/-- A slash behind the ending makes it the name of a single target. -/
theorem printed_pattern_read_dots :
    Pattern.parse "//foo/.../" = .ok (.exact dots) ∧
      Pattern.parse (toString (Pattern.exact dots)) = .ok (.exact dots) := by
  have hread : Pattern.parse "//foo/.../" = .ok (.exact dots) := by decide +kernel
  have hname : ¬ (Pattern.exact dots).NamedAll := by
    change ¬ dots.name.text = "all"
    decide
  obtain ⟨hprinted, hback, -⟩ := Pattern.printed_pattern_read_iff hread
  exact ⟨hread, hback.mpr hname ▸ hprinted⟩

/-- A pattern that selects a single target, but whose text selects all targets of the package. -/
theorem printed_all_selects_package :
    Pattern.parse "//foo/all" = .ok (.exact all) ∧
      toString (Pattern.exact all) = "//foo/all:all" ∧
      Pattern.parse "//foo/all:all" = .ok (.package all.package) ∧
      Pattern.package all.package ≠ .exact all ∧
      (Pattern.package all.package).selects ⟨all.package, Pattern.otherName⟩ = true ∧
      (Pattern.exact all).selects ⟨all.package, Pattern.otherName⟩ = false := by
  decide +kernel

end BuildAnalysis.PatternSample
