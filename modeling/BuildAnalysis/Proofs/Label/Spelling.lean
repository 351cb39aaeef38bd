import BuildAnalysis.Proofs.Label.Splitting

/-!
# Spellings of labels

A package may be written with any number of slashes at its end, and a target that is named like the
last component of its package may be written without its name. Reading accepts exactly these
spellings. The text of a label is one of them, so a label is read back from its text.
-/
namespace BuildAnalysis

theorem colon_not_mem {cs : List Char} (h : cs.all isLabelChar = true) : ':' ∉ cs := fun hmem =>
  absurd (List.all_eq_true.mp h _ hmem) (by decide)

namespace PackagePath

variable {p q : PackagePath} {text : String}

theorem eq_of_chars (h : p.chars = q.chars) : p = q := by
  obtain ⟨path, _, _⟩ := p
  obtain ⟨path', _, _⟩ := q
  obtain rfl : path = path' := String.toList_inj.mp h
  rfl

theorem toList_toString (p : PackagePath) : (toString p).toList = '/' :: '/' :: p.chars := by
  simp [toString, chars]

theorem colon_not_mem_chars (p : PackagePath) : ':' ∉ p.chars := colon_not_mem p.valid

/-- The ways to write a package. -/
def Spelled (p : PackagePath) (cs : List Char) : Prop :=
  ∃ n, cs = '/' :: '/' :: (p.chars ++ List.replicate n '/')

theorem spelled_chars (p : PackagePath) : p.Spelled ('/' :: '/' :: p.chars) :=
  ⟨0, by rw [List.replicate_zero, List.append_nil]⟩

theorem Spelled.colon_not_mem {cs : List Char} (h : p.Spelled cs) : ':' ∉ cs := by
  obtain ⟨n, rfl⟩ := h
  simp [p.colon_not_mem_chars, List.mem_replicate]

theorem spelled_iff {cs : List Char} :
    p.Spelled cs ↔ ∃ rest, cs = '/' :: '/' :: rest ∧ dropTrailingSlashes rest = p.chars := by
  constructor
  · rintro ⟨n, rfl⟩
    exact ⟨_, rfl, dropTrailingSlashes_append p.trimmed n⟩
  · rintro ⟨rest, rfl, hrest⟩
    obtain ⟨-, n, rfl⟩ := dropTrailingSlashes_eq_iff.mp hrest
    exact ⟨n, rfl⟩

theorem parse_eq_ok_iff : parse text = .ok p ↔ p.Spelled text.toList := by
  rw [spelled_iff]
  unfold parse
  split
  next rest htext =>
    dsimp only
    split
    next hvalid =>
      constructor
      · intro h
        obtain rfl := Except.ok.inj h
        exact ⟨rest, htext, String.toList_ofList.symm⟩
      · rintro ⟨rest', htext', hrest⟩
        obtain rfl : rest = rest' := by simpa using htext.symm.trans htext'
        exact congrArg Except.ok (eq_of_chars (String.toList_ofList.trans hrest))
    next hinvalid =>
      refine iff_of_false (fun h => nomatch h) ?_
      rintro ⟨rest', htext', hrest⟩
      obtain rfl : rest = rest' := by simpa using htext.symm.trans htext'
      exact hinvalid (hrest ▸ p.valid)
  next hslashes =>
    refine iff_of_false (fun h => nomatch h) ?_
    rintro ⟨rest, htext, -⟩
    exact hslashes rest htext

theorem parse_toString (p : PackagePath) : parse (toString p) = .ok p := by
  rw [parse_eq_ok_iff, toList_toString]
  exact p.spelled_chars

/-- The last component is what follows the last slash of the path with a slash in front. -/
theorem lastComponent_eq_iff {cs : List Char} :
    p.lastComponent = cs ↔ '/' ∉ cs ∧ '/' :: cs <:+ '/' :: p.chars := by
  have hsplit : ∃ before, splitLast '/' ('/' :: p.chars) = some (before, p.lastComponent) := by
    unfold lastComponent
    split
    next before last hlast => exact ⟨'/' :: before, by rw [splitLast, hlast]⟩
    next hnone => exact ⟨[], by rw [splitLast, hnone]; rfl⟩
  obtain ⟨before, hsplit⟩ := hsplit
  constructor
  · rintro rfl
    obtain ⟨hchars, hslash⟩ := splitLast_eq_some_iff.mp hsplit
    exact ⟨hslash, before, hchars.symm⟩
  · rintro ⟨hslash, before', hchars⟩
    have hsplit' := splitLast_append_cons before' hslash
    rw [hchars, hsplit] at hsplit'
    exact (Prod.mk.inj (Option.some.inj hsplit')).2

/-- Whatever follows the last slash of a text for the package is the last component. -/
theorem Spelled.lastComponent_eq {cs last : List Char} (h : p.Spelled cs)
    (hsuffix : '/' :: last <:+ cs) (hslash : '/' ∉ last) (hne : last ≠ []) :
    p.lastComponent = last := by
  obtain ⟨n, rfl⟩ := h
  cases n with
  | zero =>
      rw [List.replicate_zero, List.append_nil] at hsuffix
      refine lastComponent_eq_iff.mpr ⟨hslash, ?_⟩
      rcases List.suffix_cons_iff.mp hsuffix with heq | hsuffix
      · obtain rfl := List.tail_eq_of_cons_eq heq
        exact absurd List.mem_cons_self hslash
      · exact hsuffix
  | succ n =>
      -- The text ends in a slash, and so would the component.
      obtain ⟨before, hbefore⟩ := hsuffix
      have hlast : last.getLast hne = '/' := by
        simpa [List.replicate_succ', List.getLast?_cons, List.getLast?_append,
          List.getLast?_eq_some_getLast hne] using congrArg List.getLast? hbefore
      exact absurd (hlast ▸ List.getLast_mem hne) hslash

end PackagePath

namespace TargetName

variable {m n : TargetName}

def chars (n : TargetName) : List Char := n.text.toList

theorem eq_of_chars (h : m.chars = n.chars) : m = n := by
  obtain ⟨text, _, _⟩ := m
  obtain ⟨text', _, _⟩ := n
  obtain rfl : text = text' := String.toList_inj.mp h
  rfl

theorem colon_not_mem_chars (n : TargetName) : ':' ∉ n.chars := colon_not_mem n.valid

theorem ofChars_eq_ok_iff {whole : String} {cs : List Char} :
    ofChars whole cs = .ok n ↔ cs = n.chars := by
  unfold ofChars
  split
  next hnil =>
    refine iff_of_false (fun h => nomatch h) fun h => n.nonempty ?_
    exact String.toList_eq_nil_iff.mp (h.symm.trans hnil)
  next hne =>
    split
    next hvalid =>
      constructor
      · intro h
        obtain rfl := Except.ok.inj h
        exact String.toList_ofList.symm
      · intro h
        exact congrArg Except.ok (eq_of_chars (String.toList_ofList.trans h))
    next hinvalid =>
      refine iff_of_false (fun h => nomatch h) fun h => hinvalid ?_
      exact h ▸ n.valid

theorem parse_toString (n : TargetName) : parse (toString n) = .ok n :=
  ofChars_eq_ok_iff.mpr rfl

end TargetName

namespace Label

variable {l : Label} {text : String}

theorem toList_toString (l : Label) :
    (toString l).toList = '/' :: '/' :: (l.package.chars ++ ':' :: l.name.chars) := by
  simp [toString, PackagePath.chars, TargetName.chars]

inductive Spelled (l : Label) : List Char → Prop
  | named {pkg : List Char} (package : l.package.Spelled pkg) :
      Spelled l (pkg ++ ':' :: l.name.chars)
  /-- The name may be left out if it is the last component of the package. -/
  | short {pkg : List Char} (package : l.package.Spelled pkg) (hslash : '/' ∉ l.name.chars)
      (hlast : '/' :: l.name.chars <:+ '/' :: l.package.chars) : Spelled l pkg

theorem spelled_toString (l : Label) : l.Spelled (toString l).toList := by
  rw [toList_toString]
  exact .named l.package.spelled_chars

theorem both_eq_ok_iff {pkg : Except LabelError PackagePath}
    {name : PackagePath → Except LabelError TargetName} :
    (do
      let p ← pkg
      let n ← name p
      return (⟨p, n⟩ : Label)) = .ok l ↔ pkg = .ok l.package ∧ name l.package = .ok l.name := by
  constructor
  · intro h
    cases pkg with
    | error e => cases h
    | ok p =>
        cases hname : name p with
        | error e =>
            simp only [bind, Except.bind, hname] at h
            cases h
        | ok n =>
            simp only [bind, Except.bind, hname] at h
            obtain rfl := Except.ok.inj h
            exact ⟨rfl, hname⟩
  · rintro ⟨rfl, hname⟩
    simp only [bind, Except.bind, hname]
    rfl

/-- Reading accepts the ways to write a label, and nothing else. -/
theorem parse_eq_ok_iff : parse text = .ok l ↔ l.Spelled text.toList := by
  unfold parse
  split
  next pkg name hsplit =>
    obtain ⟨htext, hcolon⟩ := splitLast_eq_some_iff.mp hsplit
    rw [both_eq_ok_iff, PackagePath.parse_eq_ok_iff, TargetName.ofChars_eq_ok_iff,
      String.toList_ofList, htext]
    constructor
    · rintro ⟨hpkg, rfl⟩
      exact .named hpkg
    · intro h
      generalize hcs : pkg ++ ':' :: name = cs at h
      cases h with
      | named hpkg =>
          have hsplit' := splitLast_append_cons pkg hcolon
          rw [hcs, splitLast_append_cons _ l.name.colon_not_mem_chars] at hsplit'
          obtain ⟨rfl, rfl⟩ := Prod.mk.inj (Option.some.inj hsplit')
          exact ⟨hpkg, rfl⟩
      | short hpkg =>
          refine absurd ?_ hpkg.colon_not_mem
          simp [← hcs]
  next hnone =>
    have hcolon := splitLast_eq_none_iff.mp hnone
    rw [both_eq_ok_iff, PackagePath.parse_eq_ok_iff, TargetName.ofChars_eq_ok_iff,
      PackagePath.lastComponent_eq_iff]
    constructor
    · rintro ⟨hpkg, hslash, hlast⟩
      exact .short hpkg hslash hlast
    · intro h
      generalize text.toList = cs at h hcolon
      cases h with
      | named => simp at hcolon
      | short hpkg hslash hlast => exact ⟨hpkg, hslash, hlast⟩

theorem parse_toString (l : Label) : parse (toString l) = .ok l :=
  parse_eq_ok_iff.mpr l.spelled_toString

theorem toString_injective : Function.Injective (toString : Label → String) := by
  intro l m h
  have hparse := l.parse_toString
  rw [h, m.parse_toString] at hparse
  exact (Except.ok.inj hparse).symm

/-- A package, a name and a label are read back from their texts, so the text of a label tells it.
Whatever text is read as a label is one of the ways to write it, and is read like its own text. -/
theorem text_read_back :
    (∀ (p : PackagePath) (n : TargetName), parse (toString (⟨p, n⟩ : Label)) = .ok ⟨p, n⟩) ∧
      (∀ p : PackagePath, PackagePath.parse (toString p) = .ok p) ∧
      (∀ n : TargetName, TargetName.parse (toString n) = .ok n) ∧
      Function.Injective (toString : Label → String) ∧
      ∀ (text : String) (l : Label), (parse text = .ok l ↔ l.Spelled text.toList) ∧
        (parse text = .ok l → parse (toString l) = parse text) := by
  refine ⟨fun p n => parse_toString ⟨p, n⟩, PackagePath.parse_toString, TargetName.parse_toString,
    toString_injective, fun text l => ⟨parse_eq_ok_iff, fun h => ?_⟩⟩
  rw [h, parse_toString]

end Label

namespace SpellingSample

def bar : Label := ⟨⟨"foo/bar", by decide, by decide⟩, ⟨"bar", by decide, by decide⟩⟩

theorem text_read_back_bar :
    Label.parse "//foo/bar//" = .ok bar ∧ bar.Spelled "//foo/bar//".toList ∧
      toString bar = "//foo/bar:bar" ∧
      Label.parse (toString bar) = Label.parse "//foo/bar//" := by
  have hread : Label.parse "//foo/bar//" = .ok bar := by decide +kernel
  obtain ⟨hspelled, hagain⟩ := Label.text_read_back.2.2.2.2 "//foo/bar//" bar
  exact ⟨hread, hspelled.mp hread, by decide +kernel, hagain hread⟩

end SpellingSample
end BuildAnalysis
