import PatternAutomata.CommandLine.Argument
import PatternAutomata.CommandLine.Exit
import PatternAutomata.CommandLine.Trial
import PatternAutomata.Draw.Pcg
import PatternAutomata.MachineWord
import PatternAutomata.Text.Quoted
/-!
# The fuzzer

The program runs trials from a seed and tells how many patterns passed, or shows the first defect.
-/
namespace PatternAutomata.Fuzzer

/-! ## The report -/

def truth (b : Bool) : String := if b then "true" else "false"

/-- How the program ends on a defect. -/
def Defect.exit (seed : Nat) : Defect → Exit
  | unparsable pattern e =>
    .failureBy
      ("generated pattern " ++ quoteWord pattern ++ " does not parse (seed " ++ seed.repr ++ ")")
      e.message
  | disagreement pattern input byTree byNfa byDfa =>
    .failure ("pattern " ++ quoteWord pattern ++ " on input " ++ quoteWord input ++
      ": reference " ++ truth byTree ++ ", NFA " ++ truth byNfa ++ ", DFA " ++ truth byDfa ++
      " (seed " ++ seed.repr ++ ")")
  | lengthOverflow => .crash "attempt to add with overflow"

/-- How the program ends when its trials end with `outcome`. -/
def report (settings : Settings) (seed : Nat) : Except DrawError (Option Defect) → Exit
  | .ok none =>
    .success (settings.iterations.repr ++ " patterns passed (seed " ++ seed.repr ++ ")\n")
  | .ok (some defect) => defect.exit seed
  | .error e => .crash e.message

/-- The whole program, with the generator started from `seed`. -/
def Settings.runFrom (settings : Settings) (seed : Nat) : Exit :=
  let trials := trials settings settings.iterations
  report settings seed ((Pcg.ofSeed (.ofNat 64 seed)).run trials).1

/-! ## Arguments -/

/-- The options that some of the arguments give. -/
structure Options where
  seed : Option Nat
  iterations : Option Nat
  maxDepth : Option Nat
  maxInputLength : Option Nat
  inputsPerPattern : Option Nat

/-- A number that fits a machine word, in decimal digits with or without a plus sign. -/
def readNumber (text : String) : Except Refusal Nat :=
  let digits := match text.toList with
    | '+' :: digits => digits
    | digits => digits
  let value := digits.foldl (fun n c => 10 * n + (c.toNat - '0'.toNat)) 0
  if !digits.isEmpty && digits.all Char.isDigit && value < wordBound then .ok value
  else .error .usage

/-- The value of an option that is given for the first time. -/
def once (old : Option Nat) (value : Nat) : Except Refusal (Option Nat) :=
  match old with
  | none => .ok (some value)
  | some _ => .error .usage

namespace Options

def empty : Options := ⟨none, none, none, none, none⟩

def set (o : Options) (name : String) (value : Nat) : Except Refusal Options :=
  match name with
  | "seed" => return { o with seed := ← once o.seed value }
  | "iterations" => return { o with iterations := ← once o.iterations value }
  | "max-depth" => return { o with maxDepth := ← once o.maxDepth value }
  | "max-input-len" => return { o with maxInputLength := ← once o.maxInputLength value }
  | "inputs-per-pattern" => return { o with inputsPerPattern := ← once o.inputsPerPattern value }
  | _ => .error .usage

/-- The options with those in the arguments added. A value stands behind an equals sign or is the
next argument. -/
def read (o : Options) : List Argument → Except Refusal Options
  | [] | [.separator] => .ok o
  | .long "help" none :: _ | .short 'h' :: _ => .error .help
  | .long name (some text) :: rest | .long name none :: .plain text :: rest => do
    let value ← readNumber text
    let o ← o.set name value
    o.read rest
  | _ => .error .usage

def settings (o : Options) : Settings where
  iterations := o.iterations.getD 1000
  maxDepth := o.maxDepth.getD 4
  maxInputLength := o.maxInputLength.getD 8
  inputsPerPattern := o.inputsPerPattern.getD 32

end Options

def usage : String := "Usage: rxe_fuzzer [OPTIONS]"

/-- An option and what it is for, in two columns. -/
def optionLine (option purpose : String) : String :=
  "      " ++ option ++ spaces (43 - option.length) ++ purpose

def help : String := unlines [
  "Compiles random patterns and checks the DFA and the NFA against a reference matcher on " ++
    "random inputs",
  "",
  usage,
  "",
  "Options:",
  optionLine "--seed <SEED>" "Seed of the generator, defaults to the current time",
  optionLine "--iterations <ITERATIONS>" "Number of patterns to generate [default: 1000]",
  optionLine "--max-depth <MAX_DEPTH>" "Nesting limit of the generated patterns [default: 4]",
  optionLine "--max-input-len <MAX_INPUT_LEN>" "Length limit of the random inputs [default: 8]",
  optionLine "--inputs-per-pattern <INPUTS_PER_PATTERN>" "Inputs tried per pattern [default: 32]",
  "  -h, --help                                     Print help"]

/-- What the program does with its arguments when it is started at the time `now`, in seconds. -/
def run (now : Nat) (arguments : List String) : Exit :=
  match Options.empty.read (Argument.classify arguments) with
  | .ok o => o.settings.runFrom (o.seed.getD now)
  | .error .help => .success help
  | .error _ => .misuse usage

end PatternAutomata.Fuzzer
