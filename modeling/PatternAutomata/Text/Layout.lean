/-!
# Layout

How texts are put together from parts.
-/
namespace PatternAutomata

/-- Items between brackets, with a comma and a space between two of them. -/
def bracketed (items : List String) : String := "[" ++ ", ".intercalate items ++ "]"

/-- Items between braces, with a comma and a space between two of them. -/
def braced (items : List String) : String := "\x7b" ++ ", ".intercalate items ++ "\x7d"

/-- Every line followed by a line end. -/
def unlines (lines : List String) : String := String.join (lines.map fun line => line ++ "\n")

def spaces (n : Nat) : String := .ofList (List.replicate n ' ')

/-- `text` with each of its lines indented by four spaces. -/
def indented (text : String) : String :=
  "    " ++ .ofList (text.toList.flatMap fun c => if c = '\n' then "\n    ".toList else [c])

end PatternAutomata
