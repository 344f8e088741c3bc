import PatternAutomata.Pattern.Grammar
/-!
# Tokens

Every character of a pattern is one token. Besides, a `concat` token makes each juxtaposition
explicit: it stands between a token that ends an operand and one that can begin the next, and it
takes the position of the latter.
-/
namespace PatternAutomata

inductive TokenKind where
  | literal (c : Char)
  | groupOpen
  | groupClose
  | bar
  | star
  | question
  /-- A juxtaposition; no character of the pattern is such a token. -/
  | concat
  /-- A character that has no place in a pattern. -/
  | other (c : Char)
deriving DecidableEq

namespace TokenKind

def ofChar (c : Char) : TokenKind :=
  match c with
  | '(' => groupOpen
  | ')' => groupClose
  | '|' => bar
  | '*' => star
  | '?' => question
  | c => if isLiteralChar c then literal c else other c

/-- How the token is written; a juxtaposition is shown as a dot. -/
def sign : TokenKind → Char
  | literal c | other c => c
  | groupOpen => '('
  | groupClose => ')'
  | bar => '|'
  | star => '*'
  | question => '?'
  | concat => '.'

@[simp] theorem sign_ofChar (c : Char) : (ofChar c).sign = c := by
  unfold ofChar
  split <;> try rfl
  split <;> rfl

/-- Whether an operand can end with this token. -/
def endsOperand : TokenKind → Bool
  | literal _ | groupClose | star | question => true
  | _ => false

/-- Whether this token leaves a preceding operand complete, so that the two are juxtaposed. -/
def startsOperand : TokenKind → Bool
  | groupClose | bar | star | question => false
  | _ => true

end TokenKind

structure Token where
  kind : TokenKind
  /-- The number of characters before the token in the pattern. -/
  position : Nat
deriving DecidableEq

/-- The tokens of characters that begin at `position`; `afterOperand` says whether the character
before them ends an operand. -/
def tokensFrom (afterOperand : Bool) (position : Nat) : List Char → List Token
  | [] => []
  | c :: cs =>
    let kind := TokenKind.ofChar c
    let rest := ⟨kind, position⟩ :: tokensFrom kind.endsOperand (position + 1) cs
    if afterOperand && kind.startsOperand then ⟨.concat, position⟩ :: rest else rest

/-- The tokens of a pattern, juxtapositions included. -/
def tokenize (source : List Char) : List Token := tokensFrom false 0 source

end PatternAutomata
