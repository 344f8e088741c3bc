import Mathlib.Tactic.DeprecateTo
import PatternAutomata.CommandLine.Fuzzer
import PatternAutomata.CommandLine.Matcher
/-!
# The programs

The entry points: both hand their arguments on and show what comes back. The time of day is read
here and nowhere else; the first import brings the clock along.
-/
namespace PatternAutomata

/-- Prints what a program leaves behind and ends with its code. -/
def Exit.leave (e : Exit) : IO UInt32 := do
  (← IO.getStdout).putStr e.stdout
  (← IO.getStderr).putStr e.stderr
  return e.code.toUInt32

/-- The seconds since the start of the Unix epoch, and zero before it. -/
def secondsSinceEpoch : IO Nat := do
  let now ← Std.Time.Timestamp.now
  return now.toSecondsSinceUnixEpoch.toInt.toNat

/-- The fuzzer, started from the time of day unless a seed is given. -/
def fuzz (arguments : List String) : IO UInt32 := do
  (Fuzzer.run (← secondsSinceEpoch) arguments).leave

end PatternAutomata

/-- The matcher. -/
def main (arguments : List String) : IO UInt32 :=
  (PatternAutomata.Matcher.run arguments).leave
