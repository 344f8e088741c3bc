import PatternAutomata.SymbolSet
/-!
# Deterministic automata

From each state a symbol leads to one state or to none; where it leads to none, the input is
refused at once.
-/
namespace PatternAutomata

/-- What an automaton knows of one state. -/
structure DfaState where
  accepting : Bool
  /-- The symbols that lead on, in ascending order, with the state each leads to. -/
  moves : List (Char × Nat)
deriving DecidableEq

structure Dfa where
  start : Nat
  /-- State 0, state 1, and so on. -/
  states : List DfaState
deriving DecidableEq

/-- The verdict on an input. -/
inductive Outcome where
  | accepted
  | rejected
deriving DecidableEq

def Outcome.name : Outcome → String
  | accepted => "Accepted"
  | rejected => "Rejected"

namespace Dfa

def stateCount (d : Dfa) : Nat := d.states.length

/-- Whether an input may end in `q`; a number that is no state is not accepting. -/
def isAccepting (d : Dfa) (q : Nat) : Bool := (d.states[q]?.map DfaState.accepting).getD false

/-- The accepting states in ascending order. -/
def acceptingStates (d : Dfa) : List Nat := (List.range d.stateCount).filter d.isAccepting

/-- The moves from `q`; a number that is no state has none. -/
def movesFrom (d : Dfa) (q : Nat) : List (Char × Nat) := (d.states[q]?.map DfaState.moves).getD []

theorem isAccepting_of_stateCount_le {d : Dfa} {q : Nat} (h : d.stateCount ≤ q) :
    d.isAccepting q = false := by
  have hnone : d.states[q]? = none := List.getElem?_eq_none h
  simp [isAccepting, hnone]

theorem movesFrom_of_stateCount_le {d : Dfa} {q : Nat} (h : d.stateCount ≤ q) :
    d.movesFrom q = [] := by
  have hnone : d.states[q]? = none := List.getElem?_eq_none h
  simp [movesFrom, hnone]

/-- Where `c` leads from `q`. -/
def transition (d : Dfa) (q : Nat) (c : Char) : Option Nat := (d.movesFrom q).lookup c

/-- All transitions, by source and then by symbol. -/
def transitions (d : Dfa) : List (Nat × Char × Nat) :=
  (List.range d.stateCount).flatMap fun q => (d.movesFrom q).map fun m => (q, m)

/-- The symbols on transitions. -/
def alphabet (d : Dfa) : SymbolSet :=
  .ofList ((d.states.flatMap DfaState.moves).map Prod.fst)

/-- Where `w` leads from `q`. -/
def runFrom (d : Dfa) (q : Nat) (w : List Char) : Option Nat := w.foldlM d.transition q

@[simp] theorem runFrom_nil {d : Dfa} {q : Nat} : d.runFrom q [] = some q := rfl

@[simp] theorem runFrom_cons {d : Dfa} {q : Nat} {c : Char} {w : List Char} :
    d.runFrom q (c :: w) = (d.transition q c).bind (d.runFrom · w) := by
  simp only [runFrom, List.foldlM_cons]
  rfl

/-- Where `w` leads from the start. -/
def run (d : Dfa) (w : List Char) : Option Nat := d.runFrom d.start w

def simulate (d : Dfa) (w : List Char) : Outcome :=
  match d.run w with
  | some q => if d.isAccepting q then .accepted else .rejected
  | none => .rejected

def isMatch (d : Dfa) (w : List Char) : Bool := decide (d.simulate w = .accepted)

/-- The states that reading `w` from `q` enters one after the other, up to the first symbol that
leads nowhere, which is shown as `none`. -/
def traceFrom (d : Dfa) (q : Nat) : List Char → List (Option Nat)
  | [] => []
  | c :: w =>
    match d.transition q c with
    | some r => some r :: d.traceFrom r w
    | none => [none]

/-- The start and the states that reading `w` enters. -/
def trace (d : Dfa) (w : List Char) : List (Option Nat) := some d.start :: d.traceFrom d.start w

end Dfa
end PatternAutomata
