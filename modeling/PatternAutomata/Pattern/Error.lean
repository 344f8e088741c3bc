/-!
# Why a pattern is refused

Positions count the characters before the place in question.
-/
namespace PatternAutomata

inductive ParseError where
  /-- An operand had to begin, and this character cannot begin one. -/
  | unexpectedChar (found : Char) (position : Nat)
  /-- An operand had to begin where the pattern ends. -/
  | unexpectedEnd (position : Nat)
  /-- The group opened at `opened` had to be closed at `position`. -/
  | unclosedGroup (opened position : Nat)
  /-- The characters before `position` are a whole pattern and cannot be continued by `found`. -/
  | trailingInput (found : Char) (position : Nat)
deriving DecidableEq

namespace ParseError

/-- Where the pattern went wrong. -/
def position : ParseError → Nat
  | unexpectedChar _ p | unexpectedEnd p | unclosedGroup _ p | trailingInput _ p => p

def message : ParseError → String
  | unexpectedChar c p =>
    "expected alphanumeric, got `" ++ String.singleton c ++ "` at #" ++ p.repr
  | unexpectedEnd p => "expected alphanumeric, got end of pattern at #" ++ p.repr
  | unclosedGroup o p =>
    "expected `)` at #" ++ p.repr ++ " to close the group opened at #" ++ o.repr
  | trailingInput c p =>
    "unexpected `" ++ String.singleton c ++ "` at #" ++ p.repr ++ " after a complete expression"

end ParseError
end PatternAutomata
