/-!
# Arguments

How the arguments of a program are told apart.
-/
namespace PatternAutomata

inductive Argument where
  /-- Two hyphens alone: no argument after them is an option. -/
  | separator
  /-- Two hyphens and a name, with the value after an equals sign if there is one. -/
  | long (name : String) (value : Option String)
  /-- A hyphen and letters, of which this is the first. -/
  | short (letter : Char)
  /-- Any other argument, a lone hyphen among them. -/
  | plain (text : String)

namespace Argument

/-- A long option without its hyphens. -/
def ofLong (body : List Char) : Argument :=
  .long (.ofList (body.takeWhile (· ≠ '=')))
    (match body.dropWhile (· ≠ '=') with
    | [] => none
    | _ :: value => some (.ofList value))

def ofString (text : String) : Argument :=
  match text.toList with
  | ['-', '-'] => .separator
  | '-' :: '-' :: body => ofLong body
  | '-' :: letter :: _ => .short letter
  | _ => .plain text

/-- The arguments of a program; behind a separator all are plain. -/
def classify : List String → List Argument
  | [] => []
  | text :: rest =>
    match ofString text with
    | .separator => .separator :: rest.map .plain
    | a => a :: classify rest

end Argument

/-- Why arguments do not ask for the program's work. -/
inductive Refusal where
  /-- They are not of the form that the program takes. -/
  | usage
  /-- They ask what the program does. -/
  | help
  /-- They ask which version of the program this is. -/
  | version

end PatternAutomata
