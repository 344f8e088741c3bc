import PatternAutomata.Nfa.Basic
import PatternAutomata.Pattern.Tree
/-!
# Automata from trees

Each kind of tree has a way to build its automaton from those of its children. The operands are
renumbered by a shift, so that their rows lie one after the other; the first state of the result is
initial, the last one is final and no edge leaves it.
-/
namespace PatternAutomata

/-- An edge that consumes nothing and leads to `q`. -/
def Edge.epsilonTo (q : Nat) : Edge := ⟨.epsilon, q⟩

def Edge.shift (offset : Nat) (e : Edge) : Edge := ⟨e.label, e.target + offset⟩

namespace Nfa

/-- The rows of states that are renumbered from `q` to `q + offset`. -/
def shiftRows (offset : Nat) (rows : List (List Edge)) : List (List Edge) :=
  rows.map fun row => row.map (Edge.shift offset)

/-- Two lists of rows one after the other, with the last row of `upper` and the first of `lower`
made one. -/
def fuse : List (List Edge) → List (List Edge) → List (List Edge)
  | [], lower => lower
  | [row], [] => [row]
  | [row], first :: lower => (row ++ first) :: lower
  | row :: next :: upper, lower => row :: fuse (next :: upper) lower

/-- The rows of an operand, with edges that consume nothing from its last state to `exits`. -/
def withExits (rows : List (List Edge)) (exits : List Nat) : List (List Edge) :=
  fuse rows [exits.map Edge.epsilonTo]

/-- Two states and one edge between them. -/
def symbol (c : Char) : Nfa where
  initial := 0
  final := 1
  rows := #[[⟨.symbol c, 1⟩], []]
  alphabet := .insert c .empty

/-- `a` followed by `b`: the final state of `a` is the initial one of `b`. -/
def concat (a b : Nfa) : Nfa where
  initial := a.initial
  final := b.final + (a.size - 1)
  rows := (fuse a.rows.toList (shiftRows (a.size - 1) b.rows.toList)).toArray
  alphabet := a.alphabet.union b.alphabet

/-- Either `a` or `b`, between an initial and a final state of their own. -/
def alternate (a b : Nfa) : Nfa where
  initial := 0
  final := a.size + b.size + 1
  rows :=
    let exits := [a.size + b.size + 1]
    let entry := [.epsilonTo (a.initial + 1), .epsilonTo (b.initial + (a.size + 1))]
    (entry :: (withExits (shiftRows 1 a.rows.toList) exits ++
      withExits (shiftRows (a.size + 1) b.rows.toList) exits ++ [[]])).toArray
  alphabet := a.alphabet.union b.alphabet

/-- Any number of repetitions of `a`. -/
def star (a : Nfa) : Nfa where
  initial := 0
  final := a.size + 1
  rows :=
    let entry := [.epsilonTo (a.initial + 1), .epsilonTo (a.size + 1)]
    (entry :: (withExits (shiftRows 1 a.rows.toList) [0, a.size + 1] ++ [[]])).toArray
  alphabet := a.alphabet

/-- `a` or nothing. -/
def optional (a : Nfa) : Nfa where
  initial := 0
  final := a.size + 1
  rows :=
    let entry := [.epsilonTo (a.initial + 1), .epsilonTo (a.size + 1)]
    (entry :: (withExits (shiftRows 1 a.rows.toList) [a.size + 1] ++ [[]])).toArray
  alphabet := a.alphabet

/-- The automata that can be built, from operands that were built before. -/
inductive Built : Nfa → Prop
  | symbol (c : Char) : Built (symbol c)
  | concat {a b : Nfa} : Built a → Built b → Built (a.concat b)
  | alternate {a b : Nfa} : Built a → Built b → Built (a.alternate b)
  | star {a : Nfa} : Built a → Built a.star
  | optional {a : Nfa} : Built a → Built a.optional

def ofTree : Tree → Nfa
  | .literal c => symbol c
  | .sequence x y => (ofTree x).concat (ofTree y)
  | .alternative x y => (ofTree x).alternate (ofTree y)
  | .star x => (ofTree x).star
  | .optional x => (ofTree x).optional

theorem built_ofTree (t : Tree) : Built (ofTree t) := by
  induction t with
  | literal c => exact .symbol c
  | sequence _ _ hx hy => exact .concat hx hy
  | alternative _ _ hx hy => exact .alternate hx hy
  | star _ hx => exact .star hx
  | optional _ hx => exact .optional hx

end Nfa
end PatternAutomata
