/-!
# Reading values from text

Numbers are read in base ten with an optional sign. The first character that decides wins: a
character that is no digit is reported before an overflow that occurs later, and an overflow before
a bad character that comes after it.
-/
namespace BuildAnalysis.Text

inductive NumeralError where
  | empty
  | invalidDigit
  | tooLarge
  | tooSmall
  deriving DecidableEq, Repr

namespace NumeralError

def message : NumeralError → String
  | empty => "cannot parse integer from empty string"
  | invalidDigit => "invalid digit found in string"
  | tooLarge => "number too large to fit in target type"
  | tooSmall => "number too small to fit in target type"

end NumeralError

def digit? (c : Char) : Option Nat :=
  if '0' ≤ c ∧ c ≤ '9' then some (c.toNat - '0'.toNat) else none

/-- Reads decimal digits on top of `acc`, stopping at the first bad character or as soon as the
value exceeds `limit`. -/
def readDigits (limit : Nat) (overflow : NumeralError) : Nat → List Char → Except NumeralError Nat
  | acc, [] => .ok acc
  | acc, c :: cs =>
    match digit? c with
    | none => .error .invalidDigit
    | some d =>
      if limit < acc * 10 + d then .error overflow
      else readDigits limit overflow (acc * 10 + d) cs

/-- A number from zero to `limit`; a plus sign may precede the digits. -/
def readNat (limit : Nat) (s : String) : Except NumeralError Nat :=
  match s.toList with
  | [] => .error .empty
  | ['+'] => .error .invalidDigit
  | '+' :: cs => readDigits limit .tooLarge 0 cs
  | cs => readDigits limit .tooLarge 0 cs

/-- A number from `-(limit + 1)` to `limit`; a sign may precede the digits. -/
def readInt (limit : Nat) (s : String) : Except NumeralError Int :=
  match s.toList with
  | [] => .error .empty
  | ['+'] | ['-'] => .error .invalidDigit
  | '-' :: cs => (readDigits (limit + 1) .tooSmall 0 cs).map fun n => -(n : Int)
  | '+' :: cs => (readDigits limit .tooLarge 0 cs).map fun n => (n : Int)
  | cs => (readDigits limit .tooLarge 0 cs).map fun n => (n : Int)

inductive CharacterError where
  | empty
  | tooMany
  deriving DecidableEq, Repr

def CharacterError.message : CharacterError → String
  | .empty => "cannot parse char from empty string"
  | .tooMany => "too many characters in string"

/-- The character a text of length one consists of. -/
def readChar (s : String) : Except CharacterError Char :=
  match s.toList with
  | [] => .error .empty
  | [c] => .ok c
  | _ => .error .tooMany

/-- Capital ASCII letters become small; every other character stays. -/
def lowerAscii (s : String) : List Char := s.toList.map Char.toLower

/-- `1`, `true`, `yes` and `0`, `false`, `no`, in any mixture of cases. -/
def readBool? (s : String) : Option Bool :=
  let t := String.ofList (lowerAscii s)
  if t ∈ ["1", "true", "yes"] then some true
  else if t ∈ ["0", "false", "no"] then some false
  else none

end BuildAnalysis.Text
