import PatternAutomata.Pattern.Tree
/-!
# The grammar of patterns

The grammar is over the characters of the pattern, so juxtaposition is not written. With `|` and
juxtaposition nesting to the right it reads

    alternative ::= sequence | sequence '|' alternative
    sequence    ::= quantified | quantified sequence
    quantified  ::= atom | atom '*' | atom '?'
    atom        ::= letter or digit | '(' alternative ')'

`Derives r s t` says that the characters `s` derive the tree `t` from the rule `r`.
-/
namespace PatternAutomata

/-- The characters that stand for themselves: the ASCII letters and digits. -/
def isLiteralChar (c : Char) : Bool := c.isAlphanum

theorem ne_of_isLiteralChar {c d : Char} (hc : isLiteralChar c = true)
    (hd : isLiteralChar d = false) : c ≠ d := by
  rintro rfl
  rw [hc] at hd
  cases hd

/-- The rules of the grammar, from the loosest to the tightest. -/
inductive Rule where
  | alternative
  | sequence
  | quantified
  | atom
deriving DecidableEq

inductive Derives : Rule → List Char → Tree → Prop
  | oneBranch {s : List Char} {t : Tree} : Derives .sequence s t → Derives .alternative s t
  | branch {s r : List Char} {t u : Tree} :
      Derives .sequence s t → Derives .alternative r u →
      Derives .alternative (s ++ '|' :: r) (.alternative t u)
  | oneItem {s : List Char} {t : Tree} : Derives .quantified s t → Derives .sequence s t
  | item {s r : List Char} {t u : Tree} :
      Derives .quantified s t → Derives .sequence r u → Derives .sequence (s ++ r) (.sequence t u)
  | plain {s : List Char} {t : Tree} : Derives .atom s t → Derives .quantified s t
  | star {s : List Char} {t : Tree} :
      Derives .atom s t → Derives .quantified (s ++ ['*']) (.star t)
  | optional {s : List Char} {t : Tree} :
      Derives .atom s t → Derives .quantified (s ++ ['?']) (.optional t)
  | literal {c : Char} : isLiteralChar c = true → Derives .atom [c] (.literal c)
  | group {s : List Char} {t : Tree} :
      Derives .alternative s t → Derives .atom ('(' :: s ++ [')']) t

end PatternAutomata
