import PatternAutomata.Draw.Basic
import PatternAutomata.Pattern.Grammar
/-!
# Random patterns

Patterns are drawn rule by rule of their grammar, so every one parses, and to the tree of the
choices that were made. Every further branch, every further item and every group uses up one unit
of depth, and there are none without depth left.
-/
namespace PatternAutomata

/-- A text drawn from a rule of the grammar, with the tree it derives. -/
structure Phrase where
  text : List Char
  tree : Tree

/-- The rules by how far they are from the characters. -/
@[simp] def Rule.rank : Rule → Nat
  | alternative => 3
  | sequence => 2
  | quantified => 1
  | atom => 0

/-- A phrase over `literals`. One time in three a branch follows another, one time in two an item
follows another, and one time in three an atom is a group, as long as there is depth left; one item
in four is starred and one in four is optional. -/
def drawPhrase (literals : List Char) : Rule → Nat → Draw Phrase
  | .alternative, 0 => drawPhrase literals .sequence 0
  | .alternative, depth + 1 => do
    let first ← drawPhrase literals .sequence (depth + 1)
    if ← Draw.oneIn 3 then
      let rest ← drawPhrase literals .alternative depth
      return ⟨first.text ++ '|' :: rest.text, .alternative first.tree rest.tree⟩
    else
      return first
  | .sequence, 0 => drawPhrase literals .quantified 0
  | .sequence, depth + 1 => do
    let first ← drawPhrase literals .quantified (depth + 1)
    if ← Draw.oneIn 2 then
      let rest ← drawPhrase literals .sequence depth
      return ⟨first.text ++ rest.text, .sequence first.tree rest.tree⟩
    else
      return first
  | .quantified, depth => do
    let atom ← drawPhrase literals .atom depth
    match ← Draw.inRange 0 4 with
    | 0 => return ⟨atom.text ++ ['*'], .star atom.tree⟩
    | 1 => return ⟨atom.text ++ ['?'], .optional atom.tree⟩
    | _ => return atom
  | .atom, 0 => drawLiteral
  | .atom, depth + 1 => do
    if ← Draw.oneIn 3 then
      let body ← drawPhrase literals .alternative depth
      return ⟨'(' :: body.text ++ [')'], body.tree⟩
    else
      drawLiteral
termination_by rule depth => (depth, rule.rank)
where
  drawLiteral : Draw Phrase := do
    let c ← Draw.pick literals
    return ⟨[c], .literal c⟩

/-- Whether patterns can be drawn over these literals. -/
def areLiterals (literals : List Char) : Bool := !literals.isEmpty && literals.all isLiteralChar

/-- A pattern with its tree. -/
def drawPattern (maxDepth : Nat) (literals : List Char) : Draw Phrase :=
  if areLiterals literals then drawPhrase literals .alternative maxDepth else .fail .badLiterals

end PatternAutomata
