import PatternAutomata.Dfa.Subset
import PatternAutomata.Nfa.Thompson
import PatternAutomata.Pattern.Parser
import PatternAutomata.Text.Layout
import PatternAutomata.Text.Quoted
/-!
# Compiling a pattern

A pattern is parsed, its tree becomes a nondeterministic automaton and that a deterministic one. A
log tells of each stage; a pattern that does not parse leaves the record of its tokens alone.
-/
namespace PatternAutomata

/-- The deterministic automaton of a tree. -/
def Dfa.ofTree (t : Tree) : Dfa := .ofNfa (.ofTree t)

/-- The deterministic automaton of a pattern. -/
def compile (pattern : List Char) : Except ParseError Dfa := Dfa.ofTree <$> parse pattern

/-! ## The log -/

inductive LogRecord where
  /-- The tokens of a pattern. -/
  | tokens (pattern : List Char) (tokens : List Token)
  /-- The size and the alphabet of the nondeterministic automaton. -/
  | built (size : Nat) (alphabet : SymbolSet)
  /-- State `id` of the deterministic automaton stands for the set `states`. -/
  | discovered (id : Nat) (states : IndexSet)
  /-- The sizes of both automata and the number of accepting states. -/
  | determinized (nfaSize dfaSize accepting : Nat)

/-- How much detail a record belongs to. -/
inductive LogLevel where
  | debug
  | trace

/-- The stage that writes a record. -/
inductive Stage where
  | parser
  | nfa
  | dfa

/-- The records on the determinization of `a`. -/
def determinizeLog (a : Nfa) : List LogRecord :=
  let known := a.subsets.discover
  (known.zipIdx.drop 1).map (fun entry => .discovered entry.2 entry.1) ++
    [.determinized a.size known.length (known.countP a.subsets.accepts)]

/-- What `compile` records, in order. -/
def compileLog (pattern : List Char) : List LogRecord :=
  .tokens pattern (tokenize pattern) ::
    match parse pattern with
    | .error _ => []
    | .ok t =>
      let a := Nfa.ofTree t
      .built a.size a.alphabet :: determinizeLog a

/-! ## How records read -/

def TokenKind.describe : TokenKind → String
  | literal c => "Literal(" ++ quoteChar c ++ ")"
  | groupOpen => "Open"
  | groupClose => "Close"
  | bar => "Bar"
  | star => "Star"
  | question => "Question"
  | concat => "Concat"
  | other c => "Other(" ++ quoteChar c ++ ")"

def Token.describe (t : Token) : String :=
  "Token \x7b kind: " ++ t.kind.describe ++ ", position: " ++ t.position.repr ++ " \x7d"

def describeState (q : Nat) : String := "State(" ++ q.repr ++ ")"

namespace LogRecord

def level : LogRecord → LogLevel
  | tokens _ _ | discovered _ _ => .trace
  | built _ _ | determinized _ _ _ => .debug

def stage : LogRecord → Stage
  | tokens _ _ => .parser
  | built _ _ => .nfa
  | discovered _ _ | determinized _ _ _ => .dfa

def message : LogRecord → String
  | tokens pattern ts =>
    "tokens of " ++ quoteWord pattern ++ ": " ++ bracketed (ts.map Token.describe)
  | built size alphabet =>
    "built NFA with " ++ size.repr ++ " states over " ++ braced (alphabet.toList.map quoteChar)
  | discovered id states =>
    "DFA state " ++ describeState id ++ " = " ++ braced (states.toList.map describeState)
  | determinized nfaSize dfaSize accepting =>
    "determinized " ++ nfaSize.repr ++ " NFA states into " ++ dfaSize.repr ++ " DFA states (" ++
      accepting.repr ++ " accepting)"

end LogRecord
end PatternAutomata
