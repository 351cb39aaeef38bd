import BuildAnalysis.Configuration.Options

/-!
# Settings

Settings are the expected option and flag values of a condition. They match options that have all
of them, and refine settings that demand strictly less.
-/
namespace BuildAnalysis

structure Settings where
  /-- `fragment.option` and its expected value. -/
  values : SortedMap String String := ∅
  flagValues : SortedMap Label String := ∅
  deriving DecidableEq

namespace Settings

def size (s : Settings) : Nat := s.values.size + s.flagValues.size

/-- Whether the options have every expected value. -/
def isMet (s : Settings) (o : BuildOptions) : Bool :=
  s.values.entries.all (fun e => o.setting? e.1 == some e.2) &&
    s.flagValues.entries.all fun e => o.flag? e.1 == some e.2

/-- Whether `m` has every entry of `n`. -/
def includes {α : Type} [Ord α] [BEq α] (m n : SortedMap α String) : Bool :=
  n.entries.all fun e => m.get? e.1 == some e.2

/-- Whether `s` demands all that `t` demands and more. -/
def refines (s t : Settings) : Bool :=
  t.size < s.size && includes s.values t.values && includes s.flagValues t.flagValues

end Settings
end BuildAnalysis
