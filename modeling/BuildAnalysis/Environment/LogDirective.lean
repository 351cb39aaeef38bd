import BuildAnalysis.Environment.FieldPattern
import BuildAnalysis.Environment.LogLevel
import BuildAnalysis.Text.Numeral

/-!
# Log directives

A directive lets messages up to a level pass where it applies: everywhere, below a target, inside a
named span, or where a field occurs. It is written `target[span{field=value}]=level`, or as a level
alone; a target, a span or fields without a level let everything pass.

Blanks around a directive do not count when its parts are told apart. The parts themselves are taken
from the whole text, at the byte offsets that they have without those blanks.
-/
namespace BuildAnalysis

structure LogField where
  name : String
  /-- Whether a value is asked for. -/
  valued : Bool
  deriving DecidableEq

/-- Levels up to `verbosity` pass where the directive applies. -/
structure LogDirective where
  target : Option String := none
  span : Option String := none
  field : Option LogField := none
  verbosity : Nat := LogLevel.trace.verbosity
  deriving DecidableEq

namespace LogDirective

/-- The verbosity that a number or the name of a level, in any mixture of cases, stands for. -/
def verbosity? (cs : List Char) : Option Nat :=
  (Text.readNat LogLevel.trace.verbosity (String.ofList cs)).toOption <|>
    (("off", 0) :: LogLevel.all.map fun l => (l.lowerName, l.verbosity)).lookup
      (String.ofList (Text.lowerAscii (String.ofList cs)))

/-! ## Parts of a text -/

def byteSize (cs : List Char) : Nat := (String.ofList cs).utf8ByteSize

/-- What follows a number of bytes, if a character ends there. -/
def dropBytes? : Nat → List Char → Option (List Char)
  | 0, cs => some cs
  | _ + 1, [] => none
  | n + 1, c :: cs => if c.utf8Size ≤ n + 1 then dropBytes? (n + 1 - c.utf8Size) cs else none

/-- The characters of a number of bytes, if a character ends there. -/
def takeBytes? : Nat → List Char → Option (List Char)
  | 0, _ => some []
  | _ + 1, [] => none
  | n + 1, c :: cs =>
    if c.utf8Size ≤ n + 1 then (takeBytes? (n + 1 - c.utf8Size) cs).map (c :: ·) else none

/-- The part of a text from one offset to as many bytes after it. -/
def part? (text : List Char) (start bytes : Nat) : Option (List Char) :=
  (dropBytes? start text).bind (takeBytes? bytes)

/-! ## Reading -/

/-- Reads the level that starts at an offset; without one everything passes. -/
def readLevel (d : LogDirective) (text : List Char) (start : Nat) : Option LogDirective :=
  match dropBytes? start text with
  | none => none
  | some [] => some { d with verbosity := LogLevel.trace.verbosity }
  | some level => (verbosity? level).map fun v => { d with verbosity := v }

def readAfterSpan (d : LogDirective) (text : List Char) (start : Nat) :
    (seen : List Char) → Option LogDirective
  | [] => some d
  | '=' :: _ => d.readLevel text (start + 1)
  | _ => none

/-- A field with or without a value, which has to be a pattern. -/
def field? (cs : List Char) : Option LogField :=
  let name := String.ofList (cs.takeWhile (· != '='))
  match cs, cs.dropWhile (· != '=') with
  | [], _ => none
  | _, [] => some ⟨name, false⟩
  | _, _ :: value => if isFieldPattern (value.takeWhile (· != '=')) then some ⟨name, true⟩ else none

/-- Reads the field in braces that closes a span. -/
def readField (d : LogDirective) (text : List Char) (start : Nat) (seen : List Char) :
    Option LogDirective := do
  let size := byteSize (seen.takeWhile (· != '}'))
  match seen.dropWhile (· != '}') with
  | _ :: ']' :: rest =>
    let field ← field? (← part? text start size)
    readAfterSpan { d with field := some field } text (start + size + 2) rest
  | _ => none

def readSpan (d : LogDirective) (text : List Char) (start : Nat) (seen : List Char) :
    Option LogDirective := do
  let isEnd (c : Char) : Bool := c == ']' || c == '{'
  let size := byteSize (seen.takeWhile (!isEnd ·))
  match seen.dropWhile (!isEnd ·) with
  | ']' :: rest =>
    let span ← part? text start size
    readAfterSpan { d with span := some (String.ofList span) } text (start + size + 1) rest
  | _ :: rest =>
    let span ← part? text start size
    let d := if span.isEmpty then d else { d with span := some (String.ofList span) }
    readField d text (start + size + 1) rest
  | [] => none

/-- Reads a directive. Its first character opens a span or belongs to a word. -/
def parse? (text : List Char) : Option LogDirective := do
  let isEnd (c : Char) : Bool := c == '=' || c == '['
  let seen := Text.trimBlanks text
  match seen with
  | [] => none
  | '[' :: rest => readSpan {} text 1 rest
  | c :: _ =>
    guard (Text.isAlphanumeric c || ['-', ':', '_'].contains c)
    let size := byteSize (seen.takeWhile (!isEnd ·))
    match seen.dropWhile (!isEnd ·) with
    | [] =>
      match verbosity? text with
      | some v => some { verbosity := v }
      | none => some { target := some (String.ofList text) }
    | '=' :: _ =>
      let target ← part? text 0 size
      readLevel { target := some (String.ofList target) } text (size + 1)
    | _ :: rest =>
      let target ← part? text 0 size
      readSpan { target := some (String.ofList target) } text (size + 1) rest

/-! ## Applying -/

/-- Whether the directive applies to messages of a module that are logged outside of any span and have
the given fields. Their values are not looked at, so a directive that asks for one does not apply. -/
def appliesTo (d : LogDirective) (module : String) (fields : List String) : Bool :=
  d.span.isNone && d.target.all (fun t => t.toList.isPrefixOf module.toList) &&
    d.field.all (fun f => !f.valued && fields.contains f.name)

/-- How specific the directive is: the longer target decides, then whether it asks for a field. -/
def specificity (d : LogDirective) : Nat :=
  2 * (d.target.elim 0 fun t => t.utf8ByteSize + 1) + (if d.field.isSome then 1 else 0)

end LogDirective
end BuildAnalysis
