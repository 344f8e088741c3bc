import PatternAutomata.Dfa.Subset
import PatternAutomata.Generate.Pattern
import PatternAutomata.Generate.Word
import PatternAutomata.MachineWord
import PatternAutomata.Nfa.Thompson
import PatternAutomata.Pattern.Ends
import PatternAutomata.Pattern.Parser
/-!
# Trials

A trial draws a pattern and inputs for it, half of them likely to match, and compares the verdicts
of both automata with that of the matcher on the tree. It ends at the first defect.
-/
namespace PatternAutomata.Fuzzer

structure Settings where
  /-- How many patterns are drawn. -/
  iterations : Nat
  maxDepth : Nat
  /-- The greatest length of a random input. -/
  maxInputLength : Nat
  inputsPerPattern : Nat

inductive Defect where
  /-- A pattern that was drawn does not parse. -/
  | unparsable (pattern : List Char) (error : ParseError)
  /-- The verdicts on an input are not the same. -/
  | disagreement (pattern input : List Char) (byTree byNfa byDfa : Bool)
  /-- No machine word is greater than the greatest length. -/
  | lengthOverflow

/-- The literals of the patterns. -/
def patternLiterals : List Char := ['a', 'b', 'c']

/-- The characters of random inputs, one of which is in no pattern. -/
def inputCharset : List Char := ['a', 'b', 'c', 'd']

/-- A pattern under trial, with all that decides for it. -/
structure Subject where
  pattern : List Char
  tree : Tree
  nfa : Nfa
  dfa : Dfa

namespace Subject

def ofTree (pattern : List Char) (tree : Tree) : Subject :=
  let nfa := Nfa.ofTree tree
  ⟨pattern, tree, nfa, .ofNfa nfa⟩

/-- The defect that `input` shows, if it shows one. -/
def check (s : Subject) (input : List Char) : Option Defect :=
  let byTree := s.tree.isMatch input
  let byNfa := s.nfa.accepts input
  let byDfa := s.dfa.isMatch input
  if byNfa = byTree ∧ byDfa = byTree then none
  else some (.disagreement s.pattern input byTree byNfa byDfa)

/-- The first defect among `n` inputs. -/
def checkInputs (s : Subject) (input : Draw (List Char)) : Nat → Draw (Option Defect)
  | 0 => return none
  | n + 1 => do
    let w ← input
    match s.check w with
    | some defect => return some defect
    | none => s.checkInputs input n

end Subject

/-- The bytes that each word takes in a list of words; its characters are elsewhere. -/
def wordHeaderSize : Nat := 24

/-- One pattern and its inputs. -/
def trial (settings : Settings) : Draw (Option Defect) := do
  let phrase ← drawPattern settings.maxDepth patternLiterals
  match parse phrase.text with
  | .error e => return some (.unparsable phrase.text e)
  | .ok tree => do
    let witnesses ← Draw.collect wordHeaderSize (settings.inputsPerPattern / 2) tree.witness
    if wordBound ≤ settings.maxInputLength + 1 then
      return some .lengthOverflow
    else
      let range : WordRange := ⟨0, settings.maxInputLength + 1, inputCharset⟩
      range.guarded <|
        (Subject.ofTree phrase.text tree).checkInputs (range.mixed witnesses)
          settings.inputsPerPattern

/-- The first defect in `n` trials. -/
def trials (settings : Settings) : Nat → Draw (Option Defect)
  | 0 => return none
  | n + 1 => do
    match ← trial settings with
    | some defect => return some defect
    | none => trials settings n

end PatternAutomata.Fuzzer
