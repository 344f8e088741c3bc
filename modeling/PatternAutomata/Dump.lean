import PatternAutomata.Dfa.Basic
import PatternAutomata.Nfa.Basic
import PatternAutomata.Pattern.Tree
import PatternAutomata.Text.Layout
/-!
# Dumps

Texts that show a tree, a nondeterministic and a deterministic automaton in full, line by line.
-/
namespace PatternAutomata

/-! ## Trees -/

/-- How much further a child is indented than its parent. -/
def treeIndent : Nat := 8

/-- The root and then its children, one node a line, the root after `offset` spaces. -/
def Tree.linesAt (offset : Nat) (t : Tree) : List String :=
  (spaces offset ++ String.singleton t.label) ::
    match t with
    | .literal _ => []
    | .sequence x y | .alternative x y =>
      x.linesAt (offset + treeIndent) ++ y.linesAt (offset + treeIndent)
    | .star x | .optional x => x.linesAt (offset + treeIndent)

def Tree.dump (t : Tree) : String := unlines (t.linesAt 1)

/-! ## Nondeterministic automata -/

def Label.name : Label → String
  | epsilon => "Epsilon"
  | symbol c => String.singleton c

def Nfa.edgeLine (source : Nat) (e : Edge) : String :=
  "Transition from " ++ source.repr ++ " to " ++ e.target.repr ++ " on input " ++ e.label.name

def Nfa.headLines (a : Nfa) : List String :=
  ["This NFA has " ++ a.size.repr ++ " states: 0 - " ++ (a.size - 1).repr,
   "The initial state is " ++ a.initial.repr,
   "The final state is " ++ a.final.repr,
   ""]

/-- The size and the two distinguished states, and then all edges by their source. -/
def Nfa.dump (a : Nfa) : String :=
  unlines (a.headLines ++
    a.rows.toList.zipIdx.flatMap fun row => row.1.map (Nfa.edgeLine row.2))

/-! ## Deterministic automata -/

def Dfa.transitionLine (t : Nat × Char × Nat) : String :=
  "Trans[" ++ t.1.repr ++ ", " ++ String.singleton t.2.1 ++ "] = " ++ t.2.2.repr

def Dfa.headLines (d : Dfa) : List String :=
  ["DFA start state: " ++ d.start.repr,
   "DFA final state(s):" ++ String.join (d.acceptingStates.map fun q => " " ++ q.repr),
   ""]

/-- The start and the accepting states, and then all transitions. -/
def Dfa.dump (d : Dfa) : String := unlines (d.headLines ++ d.transitions.map Dfa.transitionLine)

end PatternAutomata
