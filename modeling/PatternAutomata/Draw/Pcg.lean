import PatternAutomata.Draw.Basic
import PatternAutomata.MachineWord
/-!
# The generator

A permuted congruential generator: its state of 128 bits is multiplied by a constant, and the two
halves of the state, folded and rotated by its top six bits, are the raw number drawn. Numbers
below a bound are drawn without bias: a raw number that would favour some results is thrown away,
and another one is drawn.
-/
namespace PatternAutomata

structure Pcg where
  state : BitVec 128
deriving DecidableEq

namespace Pcg

def multiplier : BitVec 128 := 0x2360ED051FC65DA44385DF649FCCF645

/-! ## Seeding -/

/-- The next state of the generator that fills the state from a seed. -/
def seedStep (s : BitVec 64) : BitVec 64 := s * 6364136223846793005 + 11634580027462260723

/-- What the generator of seeds gives in the state `s`. -/
def seedOutput (s : BitVec 64) : BitVec 32 :=
  (((s >>> 18 ^^^ s) >>> 27).setWidth 32).rotateRight (s >>> 59).toNat

/-- The generator restarted from `seed`; its state is odd. -/
def ofSeed (seed : BitVec 64) : Pcg :=
  let s₀ := seedStep seed
  let s₁ := seedStep s₀
  let s₂ := seedStep s₁
  let s₃ := seedStep s₂
  ⟨(seedOutput s₃ ++ seedOutput s₂ ++ seedOutput s₁ ++ seedOutput s₀) ||| 1⟩

/-! ## Raw numbers -/

def step (g : Pcg) : Pcg := ⟨g.state * multiplier⟩

/-- The raw number that belongs to a state. -/
def output (g : Pcg) : BitVec 64 :=
  (g.state.extractLsb' 64 64 ^^^ g.state.extractLsb' 0 64).rotateRight (g.state >>> 122).toNat

/-! ## Numbers below a bound -/

/-- The number of leading zeros of `range` among 64 binary digits. -/
def leadingZeros (range : Nat) : Nat := if range = 0 then 64 else 63 - range.log2

/-- The greatest lower half of a product of `range` with a raw number that is kept. -/
def zone (range : Nat) : Nat := (range <<< leadingZeros range) - 1

/-- Whether the raw number `raw` is kept. -/
def isKept (range raw : Nat) : Bool := decide (raw * range % wordBound ≤ zone range)

/-- The number below `range` that a raw number gives. -/
def scale (range raw : Nat) : Nat := raw * range / wordBound

/-- The first number below `range` that is kept, with at most `tries` raw numbers. -/
def firstKept (range : Nat) : Nat → Pcg → Option (Nat × Pcg)
  | 0, _ => none
  | tries + 1, g =>
    let g := g.step
    let raw := g.output.toNat
    if isKept range raw then some (scale range raw, g) else firstKept range tries g

/-- The number of states that an odd state goes through before it comes back. -/
def period : Nat := 1 <<< 126

/-- A number below `range`. One period has states of all raw numbers that are zero, and these are
kept, so that trying no longer than one period always finds a number. -/
def below (g : Pcg) (range : Nat) : Nat × Pcg := (firstKept range period g).getD (0, g)

theorem scale_lt {range : Nat} (h : 0 < range) (raw : BitVec 64) :
    scale range raw.toNat < range := by
  have hraw : raw.toNat < wordBound := raw.isLt
  unfold scale
  rw [Nat.div_lt_iff_lt_mul (Nat.zero_lt_of_lt hraw), Nat.mul_comm]
  exact Nat.mul_lt_mul_of_pos_left hraw h

theorem firstKept_lt {range tries : Nat} {g g' : Pcg} {v : Nat} (hr : 0 < range)
    (h : firstKept range tries g = some (v, g')) : v < range := by
  induction tries generalizing g with
  | zero => cases h
  | succ tries ih =>
    unfold firstKept at h
    dsimp only at h
    split at h
    · cases h
      exact scale_lt hr _
    · exact ih h

theorem getD_firstKept_lt {range : Nat} (tries : Nat) (g : Pcg) (h : 0 < range) :
    ((firstKept range tries g).getD (0, g)).1 < range := by
  cases hk : firstKept range tries g with
  | none => exact h
  | some result => exact firstKept_lt h hk

theorem below_lt {range : Nat} (g : Pcg) (h : 0 < range) : (g.below range).1 < range := by
  unfold below
  exact getD_firstKept_lt period g h

/-- The generator as a source of numbers. -/
def source : Draw.Source Pcg where
  answer low high g :=
    let drawn := g.below (high - low)
    (low + drawn.1, drawn.2)
  inRange := by
    intro low high h g
    have hlt := g.below_lt (Nat.sub_pos_of_lt h)
    dsimp only
    omega

/-- The outcome of `d` when `g` answers, and the generator after it. -/
def run {α : Type} (g : Pcg) (d : Draw α) : Except DrawError α × Pcg := source.run d g

end Pcg
end PatternAutomata
