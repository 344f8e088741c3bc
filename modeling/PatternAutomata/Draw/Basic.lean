import PatternAutomata.MachineWord
/-!
# Random choice

A `Draw α` is a computation of an `α` that may ask for numbers out of given ranges and may fail. It
does not say where the numbers come from: any source can answer (`Draw.Source`), or a list of
answers (`Draw.Outcome`).
-/
namespace PatternAutomata

/-- Why a computation cannot go on. -/
inductive DrawError where
  /-- A number out of an empty range. -/
  | emptyRange
  /-- A member of an empty list. -/
  | nothingToPick
  /-- Strings over an empty set of characters. -/
  | emptyCharset
  /-- Patterns over no literals, or over characters that are no letters or digits. -/
  | badLiterals
  /-- A buffer of more bytes than one can be given. -/
  | capacityOverflow
deriving DecidableEq

def DrawError.message : DrawError → String
  | emptyRange => "UniformSampler::sample_single: low >= high"
  | nothingToPick => "nothing to pick from"
  | emptyCharset => "empty input charset"
  | badLiterals =>
    "assertion failed: !charset.is_empty() && charset.chars().all(|c| c.is_ascii_alphanumeric())"
  | capacityOverflow => "capacity overflow"

inductive Draw (α : Type) where
  | done (a : α)
  | fail (e : DrawError)
  /-- Goes on by `next` with a number from `low` on and below `high`. -/
  | ask (low high : Nat) (nonempty : low < high) (next : Nat → Draw α)

namespace Draw

variable {α β : Type}

def bind (d : Draw α) (f : α → Draw β) : Draw β :=
  match d with
  | done a => f a
  | fail e => fail e
  | ask low high h next => ask low high h fun v => (next v).bind f

instance : Monad Draw where
  pure := done
  bind := bind

/-- `d` ends with `r` when its questions are answered by `vs`, each answer in its range. -/
inductive Outcome : Draw α → List Nat → Except DrawError α → Prop
  | done (a : α) : Outcome (done a) [] (.ok a)
  | fail (e : DrawError) : Outcome (fail e) [] (.error e)
  | ask {low high v : Nat} {h : low < high} {next : Nat → Draw α} {vs : List Nat}
      {r : Except DrawError α} :
      low ≤ v → v < high → Outcome (next v) vs r → Outcome (ask low high h next) (v :: vs) r

/-- Anything that gives numbers out of ranges, by a state of its own. -/
structure Source (σ : Type) where
  /-- A number from the state, and the state after it. -/
  answer : (low high : Nat) → σ → Nat × σ
  inRange : ∀ {low high : Nat}, low < high → ∀ s,
    low ≤ (answer low high s).1 ∧ (answer low high s).1 < high

/-- The outcome of a computation when `source` answers, and the state of the source after it. -/
def Source.run {σ : Type} (source : Source σ) : Draw α → σ → Except DrawError α × σ
  | .done a, s => (.ok a, s)
  | .fail e, s => (.error e, s)
  | .ask low high _ next, s =>
    let answer := source.answer low high s
    source.run (next answer.1) answer.2

/-- A number from `low` on and below `high`. -/
def inRange (low high : Nat) : Draw Nat :=
  if h : low < high then ask low high h done else fail .emptyRange

/-- True with one chance in `n`. -/
def oneIn (n : Nat) : Draw Bool := do
  let v ← inRange 0 n
  return v == 0

/-- A member of a list. -/
def pick : List α → Draw α
  | [] => fail .nothingToPick
  | a :: rest => do
    let i ← inRange 0 (rest.length + 1)
    return (a :: rest).getD i a

/-- The results of `n` more computations `d` after those in `results`, which are latest first. -/
def timesAfter (d : Draw α) (n : Nat) (results : List α) : Draw (List α) :=
  match n with
  | 0 => return results.reverse
  | n + 1 => do
    let a ← d
    d.timesAfter n (a :: results)

/-- The results of `n` computations `d`, one after the other. -/
def times (n : Nat) (d : Draw α) : Draw (List α) := d.timesAfter n []

/-- The results of `n` computations `d`, in a buffer that is set aside before the first of them.
Each result takes `size` bytes of it. -/
def collect (size n : Nat) (d : Draw α) : Draw (List α) :=
  if bufferLimit < n * size then fail .capacityOverflow else times n d

/-- A word whose length is from `low` on and below `high`, of members of `charset`. At first one
byte is set aside for each of them. -/
def word (low high : Nat) (charset : List Char) : Draw (List Char) := do
  let n ← inRange low high
  collect 1 n (pick charset)

end Draw
end PatternAutomata
