import Mathlib.Data.List.Basic
import BuildAnalysis.Text.Quoted

/-!
# Texts that show where they end

The diagnostic form of a value shows where it ends, whatever text follows it, and it tells the
value. Both are kept by everything that structured text is put together from: names and punctuation
around a part, one part after the other, and lists of parts between brackets.
-/
namespace BuildAnalysis.Text

universe u
variable {α β γ δ : Type u}

/-- What precedes the first occurrence of an item, and what follows it. -/
theorem eq_of_append_cons {c : α} {xs ys r r' : List α} (hxs : c ∉ xs) (hys : c ∉ ys)
    (h : xs ++ c :: r = ys ++ c :: r') : xs = ys ∧ r = r' := by
  induction xs generalizing ys with
  | nil =>
      cases ys with
      | nil => exact ⟨rfl, List.tail_eq_of_cons_eq h⟩
      | cons y ys => exact absurd (List.head_eq_of_cons_eq h ▸ List.mem_cons_self) hys
  | cons x xs ih =>
      cases ys with
      | nil => exact absurd (List.head_eq_of_cons_eq h ▸ List.mem_cons_self) hxs
      | cons y ys =>
          obtain ⟨rfl, htail⟩ := List.cons_eq_cons.mp h
          have hrest := ih (fun hc => hxs (List.mem_cons_of_mem _ hc))
            (fun hc => hys (List.mem_cons_of_mem _ hc)) htail
          exact ⟨congrArg (x :: ·) hrest.1, hrest.2⟩

/-! ### Quoted text -/

theorem hexDigits_of_lt {n : Nat} (h : n < 16) : hexDigits n = [n.digitChar] :=
  Nat.toDigits_of_lt_base h

theorem hexDigits_of_le {n : Nat} (h : 16 ≤ n) :
    hexDigits n = hexDigits (n / 16) ++ [(n % 16).digitChar] :=
  Nat.toDigits_of_base_le (by decide) h

theorem digitChar_injOn {m n : Nat} (hm : m < 16) (hn : n < 16)
    (h : m.digitChar = n.digitChar) : m = n := by
  have hall : ∀ a < 16, ∀ b < 16, a.digitChar = b.digitChar → a = b := by decide
  exact hall m hm n hn h

theorem hexDigits_injective {m n : Nat} (h : hexDigits m = hexDigits n) : m = n := by
  induction m using Nat.strongRecOn generalizing n with
  | ind m ih =>
      have hpos : ∀ k, 0 < (hexDigits k).length := fun k => Nat.length_toDigits_pos
      have hlength := congrArg List.length h
      rcases Nat.lt_or_ge m 16 with hm | hm <;> rcases Nat.lt_or_ge n 16 with hn | hn
      · rw [hexDigits_of_lt hm, hexDigits_of_lt hn] at h
        exact digitChar_injOn hm hn (List.singleton_inj.mp h)
      · rw [hexDigits_of_lt hm, hexDigits_of_le hn] at hlength
        have hfront := hpos (n / 16)
        simp only [List.length_append, List.length_singleton] at hlength
        omega
      · rw [hexDigits_of_le hm, hexDigits_of_lt hn] at hlength
        have hfront := hpos (m / 16)
        simp only [List.length_append, List.length_singleton] at hlength
        omega
      · rw [hexDigits_of_le hm, hexDigits_of_le hn] at h
        obtain ⟨hfront, hlast⟩ := List.append_inj' h rfl
        have hdiv := ih (m / 16) (by omega) hfront
        have hmod := digitChar_injOn (Nat.mod_lt _ (by decide)) (Nat.mod_lt _ (by decide))
          (List.singleton_inj.mp hlast)
        omega

theorem brace_not_mem_hexDigits (n : Nat) : '\x7d' ∉ hexDigits n := by
  have hne : ∀ k : Nat, '\x7d' ≠ k.digitChar := fun k => (Nat.digitChar_ne '\x7d' rfl).symm
  induction n using Nat.strongRecOn with
  | ind n ih =>
      by_cases hn : n < 16
      · rw [hexDigits_of_lt hn]
        exact fun h => hne n (List.mem_singleton.mp h)
      · rw [hexDigits_of_le (by omega)]
        simpa [hne] using ih (n / 16) (by omega)

/-- The characters that are written as a letter after a backslash, each with its letter. -/
def shortForms : List (Char × Char) :=
  [('\x00', '0'), ('\t', 't'), ('\n', 'n'), ('\r', 'r'), ('\"', '\"'), ('\\', '\\')]

inductive Written (c : Char) : List Char → Prop
  | plain (hquote : c ≠ '\"') (hbackslash : c ≠ '\\') : Written c [c]
  | short {x : Char} (h : (c, x) ∈ shortForms) : Written c ['\\', x]
  | numbered : Written c ('\\' :: 'u' :: '\x7b' :: (hexDigits c.toNat ++ ['\x7d']))

theorem written_escapeChar (c : Char) : Written c (escapeChar c) := by
  unfold escapeChar
  split
  case h_7 hquote hbackslash =>
    split
    next => exact .numbered
    next => exact .plain hquote hbackslash
  all_goals exact .short (by decide)

/-- The written form of a character shows where it ends and tells the character. -/
theorem Written.unique {c d : Char} {xs ys r r' : List Char} (hc : Written c xs)
    (hd : Written d ys) (h : xs ++ r = ys ++ r') : c = d ∧ r = r' := by
  have hshort : ∀ p ∈ shortForms, p.2 ≠ 'u' ∧ ∀ q ∈ shortForms, p.2 = q.2 → p = q := by decide
  cases hc with
  | plain hquote hbackslash =>
      cases hd with
      | plain => exact List.cons_eq_cons.mp h
      | short => exact absurd (List.head_eq_of_cons_eq h) hbackslash
      | numbered => exact absurd (List.head_eq_of_cons_eq h) hbackslash
  | @short x hx =>
      cases hd with
      | plain _ hbackslash => exact absurd (List.head_eq_of_cons_eq h).symm hbackslash
      | @short y hy =>
          obtain ⟨hletter, hrest⟩ := List.cons_eq_cons.mp (List.tail_eq_of_cons_eq h)
          have hpair := (hshort _ hx).2 _ hy hletter
          exact ⟨congrArg Prod.fst hpair, hrest⟩
      | numbered =>
          have hletter : x = 'u' := (List.cons_eq_cons.mp (List.tail_eq_of_cons_eq h)).1
          exact absurd hletter (hshort _ hx).1
  | numbered =>
      cases hd with
      | plain _ hbackslash => exact absurd (List.head_eq_of_cons_eq h).symm hbackslash
      | @short y hy =>
          have hletter : 'u' = y := (List.cons_eq_cons.mp (List.tail_eq_of_cons_eq h)).1
          exact absurd hletter.symm (hshort _ hy).1
      | numbered =>
          have hdigits : hexDigits c.toNat ++ '\x7d' :: r = hexDigits d.toNat ++ '\x7d' :: r' := by
            simpa using h
          obtain ⟨hnumber, hrest⟩ := eq_of_append_cons (brace_not_mem_hexDigits _)
            (brace_not_mem_hexDigits _) hdigits
          exact ⟨Char.toNat_inj.mp (hexDigits_injective hnumber), hrest⟩

theorem Written.ne_quote {c : Char} {xs r r' : List Char} (hc : Written c xs) :
    xs ++ r ≠ '\"' :: r' := by
  intro h
  cases hc with
  | plain hquote _ => exact hquote (List.head_eq_of_cons_eq h)
  | short => simp at h
  | numbered => simp at h

/-- The first bare quote ends what is escaped. -/
theorem escape_unique {cs ds r r' : List Char}
    (h : escape cs ++ '\"' :: r = escape ds ++ '\"' :: r') : cs = ds ∧ r = r' := by
  induction cs generalizing ds with
  | nil =>
      cases ds with
      | nil => exact ⟨rfl, List.tail_eq_of_cons_eq h⟩
      | cons d ds =>
          rw [escape, escape, List.flatMap_cons, List.append_assoc] at h
          exact absurd h.symm (written_escapeChar d).ne_quote
  | cons c cs ih =>
      cases ds with
      | nil =>
          rw [escape, escape, List.flatMap_cons, List.append_assoc] at h
          exact absurd h (written_escapeChar c).ne_quote
      | cons d ds =>
          rw [escape, escape, List.flatMap_cons, List.flatMap_cons, List.append_assoc,
            List.append_assoc] at h
          obtain ⟨rfl, hrest⟩ := (written_escapeChar c).unique (written_escapeChar d) h
          obtain ⟨rfl, hr⟩ := ih hrest
          exact ⟨rfl, hr⟩

/-! ### Structured text -/

/-- Whatever follows the text of a value, it shows where it ends, and it tells what `v` is of the
value. -/
def Tells (text : α → String) (v : α → β) : Prop :=
  ∀ a b (r r' : List Char), (text a).toList ++ r = (text b).toList ++ r' → v a = v b ∧ r = r'

/-- The text of a value begins with another character. -/
def Avoids (text : α → String) (c : Char) : Prop :=
  ∀ a, ∃ d ds, (text a).toList = d :: ds ∧ d ≠ c

theorem Avoids.quote {c : Char} (hc : '\"' ≠ c) : Avoids quote c :=
  fun s => ⟨'\"', escape s.toList ++ ['\"'], by simp [Text.quote], hc⟩

theorem Avoids.applied {name : String} {c : Char} (h : ∃ d ds, name.toList = d :: ds ∧ d ≠ c)
    (text : α → String) : Avoids (fun a => applied name [text a]) c := by
  obtain ⟨d, ds, hname, hd⟩ := h
  exact fun a => ⟨d, ds ++ ['('] ++ (text a).toList ++ [')'], by simp [Text.applied, hname], hd⟩

theorem Avoids.record {name : String} {c : Char} (h : ∃ d ds, name.toList = d :: ds ∧ d ≠ c)
    (fields : α → List (String × String)) : Avoids (fun a => record name (fields a)) c := by
  obtain ⟨d, ds, hname, hd⟩ := h
  exact fun a => ⟨d, ds ++ (" \x7b " ++
    ", ".intercalate ((fields a).map fun f => f.1 ++ ": " ++ f.2) ++ " \x7d").toList,
    by simp [Text.record, hname], hd⟩

/-- The items of a list, each after a comma. -/
def commaed (text : α → String) (xs : List α) : List Char :=
  xs.flatMap fun x => ',' :: ' ' :: (text x).toList

theorem toList_intercalate_cons (text : α → String) (x : α) (xs : List α) :
    (", ".intercalate ((x :: xs).map text)).toList = (text x).toList ++ commaed text xs := by
  induction xs generalizing x with
  | nil => simp [commaed]
  | cons y ys ih =>
      rw [List.map_cons, List.map_cons, String.intercalate_cons_cons, String.toList_append,
        String.toList_append, ← List.map_cons, ih, commaed, commaed, List.flatMap_cons]
      simp

namespace Tells

variable {f : α → String} {g : α → String} {v : α → β} {w : α → γ}

theorem quote : Tells quote id := by
  intro s t r r' h
  have hescaped : escape s.toList ++ '\"' :: r = escape t.toList ++ '\"' :: r' := by
    simpa [Text.quote] using h
  exact (escape_unique hescaped).imp_left fun h => String.toList_inj.mp h

theorem imp {w : α → γ} (h : Tells f v) (hv : ∀ a b, v a = v b → w a = w b) : Tells f w :=
  fun a b r r' hr => (h a b r r' hr).imp_left (hv a b)

theorem comp (h : Tells f v) (p : δ → α) : Tells (fun d => f (p d)) fun d => v (p d) :=
  fun d e => h (p d) (p e)

theorem injective (h : Tells f id) : Function.Injective f := fun a b hab =>
  (h a b [] [] (by rw [hab])).1

theorem before (s : String) (h : Tells f v) : Tells (fun a => s ++ f a) v := by
  intro a b r r' hr
  simp only [String.toList_append, List.append_assoc] at hr
  exact h a b r r' (List.append_cancel_left hr)

theorem after (h : Tells f v) (s : String) : Tells (fun a => f a ++ s) v := by
  intro a b r r' hr
  simp only [String.toList_append, List.append_assoc] at hr
  exact (h a b _ _ hr).imp_right List.append_cancel_left

theorem append (h : Tells f v) (h' : Tells g w) :
    Tells (fun a => f a ++ g a) fun a => (v a, w a) := by
  intro a b r r' hr
  simp only [String.toList_append, List.append_assoc] at hr
  obtain ⟨hv, hrest⟩ := h a b _ _ hr
  obtain ⟨hw, hr⟩ := h' a b _ _ hrest
  exact ⟨Prod.ext hv hw, hr⟩

theorem applied (name : String) (h : Tells f v) : Tells (fun a => applied name [f a]) v :=
  (h.before (name ++ "(")).after ")"

theorem record₂ (name k l : String) (h : Tells f v) (h' : Tells g w) :
    Tells (fun a => record name [(k, f a), (l, g a)]) fun a => (v a, w a) :=
  ((((h.before (k ++ ": ")).after ", ").append (h'.before (l ++ ": "))).before
    (name ++ " \x7b ")).after " \x7d"

theorem record₃ {e : α → String} {x : α → δ} (name k l m : String) (h : Tells e x)
    (h' : Tells f v) (h'' : Tells g w) :
    Tells (fun a => record name [(k, e a), (l, f a), (m, g a)]) fun a => ((x a, v a), w a) :=
  ((((((h.before (k ++ ": ")).after ", ").append (h'.before (l ++ ": "))).after ", ").append
    (h''.before (m ++ ": "))).before (name ++ " \x7b ")).after " \x7d"

theorem optional (h : Tells f id) : Tells (fun o : Option α => optional (o.map f)) id := by
  intro o o' r r' hr
  cases o with
  | none =>
      cases o' with
      | none => exact ⟨rfl, List.append_cancel_left hr⟩
      | some b => simp [Text.optional, Text.applied] at hr
  | some a =>
      cases o' with
      | none => simp [Text.optional, Text.applied] at hr
      | some b => exact (h.applied "Some" a b r r' hr).imp_left (congrArg some)

/-! ### Lists -/

/-- Items after commas end where another character stands in the place of a comma. -/
theorem commaed_unique (h : Tells f id) {c : Char} (hc : c ≠ ',') {xs ys : List α}
    {r r' : List Char} (hr : commaed f xs ++ c :: r = commaed f ys ++ c :: r') :
    xs = ys ∧ r = r' := by
  induction xs generalizing ys with
  | nil =>
      cases ys with
      | nil => exact ⟨rfl, List.tail_eq_of_cons_eq hr⟩
      | cons y ys => exact absurd (List.head_eq_of_cons_eq hr) hc
  | cons x xs ih =>
      cases ys with
      | nil => exact absurd (List.head_eq_of_cons_eq hr).symm hc
      | cons y ys =>
          simp only [commaed, List.flatMap_cons, List.cons_append, List.append_assoc,
            List.cons.injEq, true_and] at hr
          obtain ⟨hxy, hrest⟩ := h x y _ _ hr
          obtain ⟨hxs, htail⟩ := ih hrest
          exact ⟨congrArg₂ List.cons hxy hxs, htail⟩

theorem separated (h : Tells f id) {close : Char} (hclose : close ≠ ',')
    (havoids : Avoids f close) :
    Tells (fun xs : List α => ", ".intercalate (xs.map f) ++ String.singleton close) id := by
  intro xs ys r r' hr
  simp only [String.toList_append, String.toList_singleton, List.append_assoc,
    List.singleton_append] at hr
  cases xs with
  | nil =>
      cases ys with
      | nil => exact ⟨rfl, List.tail_eq_of_cons_eq hr⟩
      | cons y ys =>
          obtain ⟨d, ds, hy, hd⟩ := havoids y
          rw [toList_intercalate_cons, hy] at hr
          exact absurd (List.head_eq_of_cons_eq hr).symm hd
  | cons x xs =>
      cases ys with
      | nil =>
          obtain ⟨d, ds, hx, hd⟩ := havoids x
          rw [toList_intercalate_cons, hx] at hr
          exact absurd (List.head_eq_of_cons_eq hr) hd
      | cons y ys =>
          rw [toList_intercalate_cons, toList_intercalate_cons, List.append_assoc,
            List.append_assoc] at hr
          obtain ⟨hxy, hrest⟩ := h x y _ _ hr
          obtain ⟨hxs, htail⟩ := commaed_unique h hclose hrest
          exact ⟨congrArg₂ List.cons hxy hxs, htail⟩

theorem bracketed (h : Tells f id) (havoids : Avoids f ']') :
    Tells (fun xs : List α => bracketed (xs.map f)) id := by
  have hitems := (h.separated (by decide) havoids).before "["
  intro xs ys r r' hr
  refine hitems xs ys r r' ?_
  simpa [Text.bracketed, String.append_assoc] using hr

theorem mapping {g : β → String} (h : Tells f id) (h' : Tells g id) (havoids : Avoids f '\x7d') :
    Tells (fun es : List (α × β) => mapping (es.map fun e => (f e.1, g e.2))) id := by
  have hentry : Tells (fun e : α × β => f e.1 ++ ": " ++ g e.2) id :=
    (((h.comp Prod.fst).after ": ").append (h'.comp Prod.snd)).imp fun a b hab => hab
  have hopens : Avoids (fun e : α × β => f e.1 ++ ": " ++ g e.2) '\x7d' := by
    intro e
    obtain ⟨d, ds, hd, hne⟩ := havoids e.1
    exact ⟨d, ds ++ ": ".toList ++ (g e.2).toList, by simp [hd], hne⟩
  have hitems := (hentry.separated (by decide) hopens).before "\x7b"
  intro es es' r r' hr
  refine hitems es es' r r' ?_
  simpa [Text.mapping, String.append_assoc, Function.comp_def] using hr

end Tells

end BuildAnalysis.Text
