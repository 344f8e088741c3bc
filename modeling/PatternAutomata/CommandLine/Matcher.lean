import PatternAutomata.CommandLine.Argument
import PatternAutomata.CommandLine.Exit
import PatternAutomata.Compile
import PatternAutomata.Dump
/-!
# The matcher

The program takes a pattern and an input and tells whether the pattern matches the whole
input. On request it shows the tree and both automata first.
-/
namespace PatternAutomata.Matcher

structure Request where
  pattern : List Char
  input : List Char
  showTree : Bool
  showNfa : Bool
  showDfa : Bool

/-! ## The answer -/

/-- `text` and an empty line, if it is wanted. -/
def textIf (wanted : Bool) (text : String) : String := if wanted then text ++ "\n" else ""

def Request.answer (r : Request) : Exit :=
  match parse r.pattern with
  | .error e => .failureBy ("invalid pattern " ++ quoteWord r.pattern) e.message
  | .ok tree =>
    let nfa := Nfa.ofTree tree
    let dfa := Dfa.ofNfa nfa
    .success (textIf r.showTree tree.dump ++ textIf r.showNfa nfa.dump ++
      textIf r.showDfa dfa.dump ++ "Result: " ++ (dfa.simulate r.input).name ++ "\n")

/-! ## Arguments -/

/-- What some of the arguments ask for. -/
structure Draft where
  positionals : List String
  tree : Bool
  nfa : Bool
  dfa : Bool

namespace Draft

def empty : Draft := ⟨[], false, false, false⟩

/-- One more argument. A flag may stand anywhere but not twice, and has no value. -/
def add (d : Draft) : Argument → Except Refusal Draft
  | .separator => .ok d
  | .plain text =>
    if d.positionals.length < 2 then .ok { d with positionals := d.positionals ++ [text] }
    else .error .usage
  | .long "tree" none => if d.tree then .error .usage else .ok { d with tree := true }
  | .long "nfa" none => if d.nfa then .error .usage else .ok { d with nfa := true }
  | .long "dfa" none => if d.dfa then .error .usage else .ok { d with dfa := true }
  | .long "help" none | .short 'h' => .error .help
  | .long "version" none | .short 'V' => .error .version
  | .long _ _ | .short _ => .error .usage

def finish (d : Draft) : Except Refusal Request :=
  match d.positionals with
  | [pattern, input] => .ok ⟨pattern.toList, input.toList, d.tree, d.nfa, d.dfa⟩
  | _ => .error .usage

end Draft

/-- The request that the arguments make. -/
def Request.ofArguments (arguments : List String) : Except Refusal Request := do
  let d ← (Argument.classify arguments).foldlM Draft.add Draft.empty
  d.finish

def usage : String := "Usage: rxe [OPTIONS] <PATTERN> <INPUT>"

def help : String := unlines [
  "Compiles PATTERN into a DFA and tells whether INPUT matches it",
  "",
  usage,
  "",
  "Arguments:",
  "  <PATTERN>  ASCII letters and digits combined with `(`, `)`, `|`, `*` and `?`",
  "  <INPUT>    The string to match",
  "",
  "Options:",
  "      --tree     Print the parse tree",
  "      --nfa      Print the NFA built by Thompson's construction",
  "      --dfa      Print the DFA built by the subset construction",
  "  -h, --help     Print help",
  "  -V, --version  Print version"]

def version : String := "rxe 0.1.0\n"

/-- What the program does with its arguments. -/
def run (arguments : List String) : Exit :=
  match Request.ofArguments arguments with
  | .ok r => r.answer
  | .error .usage => .misuse usage
  | .error .help => .success help
  | .error .version => .success version

end PatternAutomata.Matcher
