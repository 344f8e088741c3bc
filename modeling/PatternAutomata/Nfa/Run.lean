import PatternAutomata.Nfa.Basic
import PatternAutomata.Reach
/-!
# Running a nondeterministic automaton

A run keeps the set of all states that the automaton can be in.
-/
namespace PatternAutomata.Nfa

/-- The given indices and all states reached from them without consuming anything. -/
def closure (a : Nfa) (s : IndexSet) : IndexSet :=
  reach a.size (fun frontier => frontier.image (a.targets .epsilon)) s

/-- The states that one edge for `c` leads to from a member of `s`. -/
def moveOn (a : Nfa) (s : IndexSet) (c : Char) : IndexSet := s.image (a.targets (.symbol c))

@[simp] theorem mem_moveOn {a : Nfa} {s : IndexSet} {c : Char} {r : Nat} :
    r ∈ a.moveOn s c ↔ ∃ q ∈ s, ⟨.symbol c, r⟩ ∈ a.edgesFrom q := by
  simp [moveOn]

/-- The states of a run that has consumed nothing. -/
def startSet (a : Nfa) : IndexSet := a.closure (.ofList [a.initial])

/-- The states of a run that was in the states `s` and has consumed `c`. -/
def advance (a : Nfa) (s : IndexSet) (c : Char) : IndexSet := a.closure (a.moveOn s c)

/-- The states of a run that has consumed `w`. -/
def active (a : Nfa) (w : List Char) : IndexSet := w.foldl a.advance a.startSet

def accepts (a : Nfa) (w : List Char) : Bool := decide (a.final ∈ a.active w)

end PatternAutomata.Nfa
