import PatternAutomata.IndexSet
import PatternAutomata.SymbolSet
/-!
# Nondeterministic automata

The states of an automaton are the numbers below its size. It has one initial and one final state,
and for every state a row with the edges that leave it, in a fixed order.
-/
namespace PatternAutomata

/-- What following an edge consumes. -/
inductive Label where
  | epsilon
  | symbol (c : Char)
deriving DecidableEq

structure Edge where
  label : Label
  target : Nat
deriving DecidableEq

structure Nfa where
  initial : Nat
  final : Nat
  /-- The edges that leave state 0, state 1, and so on. -/
  rows : Array (List Edge)
  /-- The symbols on edges. -/
  alphabet : SymbolSet
deriving DecidableEq

namespace Nfa

def size (a : Nfa) : Nat := a.rows.size

/-- The edges that leave `q`; a number that is no state has none. -/
def edgesFrom (a : Nfa) (q : Nat) : List Edge := a.rows[q]?.getD []

/-- The states that the edges labelled `l` lead to from `q`. -/
def targets (a : Nfa) (l : Label) (q : Nat) : List Nat :=
  ((a.edgesFrom q).filter fun e => e.label = l).map Edge.target

@[simp] theorem mem_targets {a : Nfa} {l : Label} {q r : Nat} :
    r ∈ a.targets l q ↔ ⟨l, r⟩ ∈ a.edgesFrom q := by
  simp only [targets, List.mem_map, List.mem_filter, decide_eq_true_eq]
  exact ⟨fun ⟨e, ⟨he, hl⟩, hr⟩ => hl ▸ hr ▸ he, fun h => ⟨_, ⟨h, rfl⟩, rfl⟩⟩

end Nfa
end PatternAutomata
