import PatternAutomata.Pattern.Tree
import PatternAutomata.Reach
/-!
# Matching on the tree

A matcher that follows the tree without any automaton: for each part of the tree it finds all
positions of the input at which a match can end.
-/
namespace PatternAutomata.Tree

/-- Every position at which a match of `t` can end that begins at a member of `starts`. -/
def endsFrom (t : Tree) (input : List Char) (starts : IndexSet) : IndexSet :=
  match t with
  | literal c => starts.image fun i => if input[i]? = some c then [i + 1] else []
  | sequence x y => y.endsFrom input (x.endsFrom input starts)
  | alternative x y => (x.endsFrom input starts).union (y.endsFrom input starts)
  | optional x => starts.union (x.endsFrom input starts)
  | star x => reach (input.length + 1) (x.endsFrom input) starts

/-- Every position at which a match of `t` that begins at `start` can end. -/
def ends (t : Tree) (input : List Char) (start : Nat) : IndexSet :=
  t.endsFrom input (.ofList [start])

/-- Whether the whole input is a match. -/
def isMatch (t : Tree) (input : List Char) : Bool := decide (input.length ∈ t.ends input 0)

end PatternAutomata.Tree
