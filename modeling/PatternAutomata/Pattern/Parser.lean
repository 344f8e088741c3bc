import PatternAutomata.Pattern.Error
import PatternAutomata.Pattern.Token
/-!
# Parsing

Tokens are read one by one. What has been read so far is a `Progress`: the level of bracketing at
hand, the groups it lies in, and the operand that the next token may still quantify. A token that
fits nowhere ends the parse at once, so an error is found at the first character that no
continuation can mend.
-/
namespace PatternAutomata

/-- What is finished on one level of bracketing, latest first: the branches before the one at
hand, and the items of that branch. -/
structure Level where
  branches : List Tree
  items : List Tree

namespace Level

/-- A level of which nothing has been read. -/
def empty : Level := ⟨[], []⟩

/-- The branch at hand when `last` is its last item. -/
def branch (level : Level) (last : Tree) : Tree :=
  level.items.foldl (fun rest item => .sequence item rest) last

/-- The whole level when `last` is its last item. -/
def close (level : Level) (last : Tree) : Tree :=
  level.branches.foldl (fun rest branch => .alternative branch rest) (level.branch last)

/-- `last` ends an item, and the branch goes on. -/
def addItem (level : Level) (last : Tree) : Level := ⟨level.branches, last :: level.items⟩

/-- `last` ends a branch, and the next one begins. -/
def addBranch (level : Level) (last : Tree) : Level := ⟨level.branch last :: level.branches, []⟩

end Level

/-- A group that is not closed yet. -/
structure OpenGroup where
  /-- Where its parenthesis stands. -/
  position : Nat
  /-- The level that goes on when it is closed. -/
  outside : Level

/-- The operand read last. -/
structure Operand where
  tree : Tree
  /-- It carries no quantifier yet. -/
  quantifiable : Bool

structure Progress where
  /-- The open groups, innermost first. -/
  groups : List OpenGroup
  level : Level
  /-- Absent where an operand has to begin. -/
  operand : Option Operand

namespace Progress

/-- Nothing has been read. -/
def start : Progress := ⟨[], .empty, none⟩

/-- The error at `position`, where an operand is complete and neither the pattern nor the innermost
group ends. -/
def stuck (p : Progress) (found : Char) (position : Nat) : ParseError :=
  match p.groups with
  | [] => .trailingInput found position
  | g :: _ => .unclosedGroup g.position position

/-- One token where an operand has to begin. -/
def stepOperand (p : Progress) (t : Token) : Except ParseError Progress :=
  match t.kind with
  | .literal c => .ok { p with operand := some ⟨.literal c, true⟩ }
  | .groupOpen => .ok ⟨⟨t.position, p.level⟩ :: p.groups, .empty, none⟩
  | k => .error (.unexpectedChar k.sign t.position)

/-- One token after the operand `o`. -/
def stepOperator (p : Progress) (o : Operand) (t : Token) : Except ParseError Progress :=
  match t.kind, p.groups with
  | .star, _ =>
    if o.quantifiable then .ok { p with operand := some ⟨.star o.tree, false⟩ }
    else .error (p.stuck t.kind.sign t.position)
  | .question, _ =>
    if o.quantifiable then .ok { p with operand := some ⟨.optional o.tree, false⟩ }
    else .error (p.stuck t.kind.sign t.position)
  | .concat, _ => .ok { p with level := p.level.addItem o.tree, operand := none }
  | .bar, _ => .ok { p with level := p.level.addBranch o.tree, operand := none }
  | .groupClose, g :: gs => .ok ⟨gs, g.outside, some ⟨p.level.close o.tree, true⟩⟩
  | k, _ => .error (p.stuck k.sign t.position)

def step (p : Progress) (t : Token) : Except ParseError Progress :=
  match p.operand with
  | none => p.stepOperand t
  | some o => p.stepOperator o t

/-- The tree, if the pattern ends here, after `length` characters. -/
def finish (p : Progress) (length : Nat) : Except ParseError Tree :=
  match p.operand, p.groups with
  | none, _ => .error (.unexpectedEnd length)
  | some _, g :: _ => .error (.unclosedGroup g.position length)
  | some o, [] => .ok (p.level.close o.tree)

end Progress

/-- The tree that a pattern denotes. -/
def parse (source : List Char) : Except ParseError Tree := do
  let p ← (tokenize source).foldlM Progress.step Progress.start
  p.finish source.length

end PatternAutomata
