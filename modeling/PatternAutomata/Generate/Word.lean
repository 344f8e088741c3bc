import PatternAutomata.Draw.Basic
import PatternAutomata.Pattern.Tree
/-!
# Random words

Words of random characters, words of the language of a tree, and a mix of random and given words.
-/
namespace PatternAutomata

/-- Which random words to draw: their lengths are from `low` on and below `high`. -/
structure WordRange where
  low : Nat
  high : Nat
  charset : List Char

namespace WordRange

/-- `d`, unless there are no characters to make words of. -/
def guarded {α : Type} (r : WordRange) (d : Draw α) : Draw α :=
  if r.charset.isEmpty then .fail .emptyCharset else d

/-- A word of the range. -/
def word (r : WordRange) : Draw (List Char) := Draw.word r.low r.high r.charset

/-- A word of the range, or one of `fixed` every other time if there are any. -/
def mixed (r : WordRange) (fixed : List (List Char)) : Draw (List Char) := do
  if fixed.isEmpty then
    r.word
  else if ← Draw.oneIn 2 then
    r.word
  else
    Draw.pick fixed

/-- A word of the range. -/
def drawWord (r : WordRange) : Draw (List Char) := r.guarded r.word

/-- `count` words, each of the range or among `fixed`. -/
def drawMixed (r : WordRange) (fixed : List (List Char)) (count : Nat) :
    Draw (List (List Char)) :=
  r.guarded (Draw.times count (r.mixed fixed))

end WordRange

/-- A word of the language of a tree; a star repeats its body up to three times. -/
def Tree.witness : Tree → Draw (List Char)
  | .literal c => return [c]
  | .sequence x y => do
    let u ← x.witness
    let v ← y.witness
    return u ++ v
  | .alternative x y => do
    if ← Draw.oneIn 2 then x.witness else y.witness
  | .optional x => do
    if ← Draw.oneIn 2 then x.witness else return []
  | .star x => do
    let n ← Draw.inRange 0 4
    let words ← Draw.times n x.witness
    return words.flatten

end PatternAutomata
