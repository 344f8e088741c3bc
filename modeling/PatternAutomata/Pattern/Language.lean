import PatternAutomata.Pattern.Tree
/-!
# The language of a tree

`Tree.Matches t w` says that the word `w` belongs to the language of `t`: a literal is its
one-character word, a sequence concatenates, an alternative joins, `optional` adds the empty word
and `star` is the closure under concatenation.
-/
namespace PatternAutomata

inductive Tree.Matches : Tree → List Char → Prop
  | literal (c : Char) : Matches (.literal c) [c]
  | sequence {x y : Tree} {u v : List Char} :
      Matches x u → Matches y v → Matches (.sequence x y) (u ++ v)
  | first {x y : Tree} {u : List Char} : Matches x u → Matches (.alternative x y) u
  | second {x y : Tree} {u : List Char} : Matches y u → Matches (.alternative x y) u
  | absent {x : Tree} : Matches (.optional x) []
  | present {x : Tree} {u : List Char} : Matches x u → Matches (.optional x) u
  | finished {x : Tree} : Matches (.star x) []
  | again {x : Tree} {u v : List Char} :
      Matches x u → Matches (.star x) v → Matches (.star x) (u ++ v)

end PatternAutomata
