import PatternAutomata.Text.Layout
/-!
# Exits

What a program leaves behind: its code and what it has written to the two outputs.
-/
namespace PatternAutomata

structure Exit where
  code : Nat
  stdout : String
  stderr : String

namespace Exit

def success (stdout : String) : Exit := ⟨0, stdout, ""⟩

/-- The work could not be done. -/
def failure (message : String) : Exit := ⟨1, "", "Error: " ++ message ++ "\n"⟩

/-- The work could not be done, for a reason given apart. -/
def failureBy (message cause : String) : Exit :=
  failure (message ++ "\n\nCaused by:\n" ++ indented cause)

/-- The arguments were not of the form that `usage` shows. -/
def misuse (usage : String) : Exit := ⟨2, "", "error: invalid arguments\n\n" ++ usage ++ "\n"⟩

/-- The program met a state that it takes to be impossible. -/
def crash (message : String) : Exit := ⟨101, "", message ++ "\n"⟩

end Exit
end PatternAutomata
