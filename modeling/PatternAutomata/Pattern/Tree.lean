/-!
# Pattern trees

A pattern denotes a tree of literals, sequences, alternatives and quantified parts. Both binary
nodes have exactly two children; a longer sequence or a longer choice nests. Parentheses only
shape the tree and leave no node.
-/
namespace PatternAutomata

inductive Tree where
  | literal (c : Char)
  /-- `first` followed by `second`. -/
  | sequence (first second : Tree)
  /-- `first` or `second`. -/
  | alternative (first second : Tree)
  /-- Zero or more repetitions of `body`. -/
  | star (body : Tree)
  /-- `body` or nothing. -/
  | optional (body : Tree)
deriving DecidableEq

namespace Tree

/-- The sign of the root: the operator's, or the literal itself. -/
def label : Tree → Char
  | literal c => c
  | sequence _ _ => '.'
  | alternative _ _ => '|'
  | star _ => '*'
  | optional _ => '?'

/-- The direct children, left to right. -/
def children : Tree → List Tree
  | literal _ => []
  | sequence x y | alternative x y => [x, y]
  | star x | optional x => [x]

/-- The literals from left to right, each occurrence once. -/
def literals : Tree → List Char
  | literal c => [c]
  | sequence x y | alternative x y => x.literals ++ y.literals
  | star x | optional x => x.literals

end Tree
end PatternAutomata
