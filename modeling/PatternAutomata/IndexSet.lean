/-!
# Sets of indices

Finite sets of natural numbers: the states of an automaton, the positions in a word. A set is the
number whose binary digits say which indices it holds, so equal sets are equal values.
-/
namespace PatternAutomata

structure IndexSet where
  /-- Digit `i` is set when `i` is a member. -/
  bits : Nat
deriving DecidableEq

namespace IndexSet

instance : Membership Nat IndexSet := ⟨fun s i => s.bits.testBit i = true⟩

instance (i : Nat) (s : IndexSet) : Decidable (i ∈ s) :=
  inferInstanceAs (Decidable (s.bits.testBit i = true))

@[ext] theorem ext {s t : IndexSet} (h : ∀ i, i ∈ s ↔ i ∈ t) : s = t := by
  cases s; cases t
  congr
  exact Nat.eq_of_testBit_eq fun i => Bool.eq_iff_iff.mpr (h i)

def empty : IndexSet := ⟨0⟩

def insert (i : Nat) (s : IndexSet) : IndexSet := ⟨1 <<< i ||| s.bits⟩

def union (s t : IndexSet) : IndexSet := ⟨s.bits ||| t.bits⟩

/-- The members of `s` that are not in `t`. -/
def diff (s t : IndexSet) : IndexSet := ⟨s.bits ^^^ (s.bits &&& t.bits)⟩

/-- The members below `bound`. -/
def below (s : IndexSet) (bound : Nat) : IndexSet := ⟨s.bits % (1 <<< bound)⟩

def isEmpty (s : IndexSet) : Bool := s.bits == 0

/-- The set of the members of a list, in any order and multiplicity. -/
def ofList (l : List Nat) : IndexSet := l.foldr insert empty

/-- The places of the digits set in `bits`, ascending, and then `rest`. The highest digit is taken
off first. -/
def places (bits : Nat) (rest : List Nat) : List Nat :=
  if bits = 0 then rest else places (bits - (1 <<< bits.log2)) (bits.log2 :: rest)
termination_by bits
decreasing_by
  rw [Nat.one_shiftLeft]
  exact Nat.sub_lt (Nat.pos_of_ne_zero ‹_›) (Nat.two_pow_pos _)

/-- The members in ascending order. -/
def toList (s : IndexSet) : List Nat := places s.bits []

/-- All indices that `f` gives for a member. -/
def image (s : IndexSet) (f : Nat → List Nat) : IndexSet := ofList (s.toList.flatMap f)

@[simp] theorem not_mem_empty (i : Nat) : i ∉ empty := by
  simp [Membership.mem, empty]

@[simp] theorem mem_insert {i j : Nat} {s : IndexSet} : i ∈ s.insert j ↔ i = j ∨ i ∈ s := by
  simp only [Membership.mem, insert, Nat.testBit_or, Nat.one_shiftLeft, Nat.testBit_two_pow,
    Bool.or_eq_true, decide_eq_true_eq]
  exact or_congr eq_comm Iff.rfl

@[simp] theorem mem_union {i : Nat} {s t : IndexSet} : i ∈ s.union t ↔ i ∈ s ∨ i ∈ t := by
  simp [Membership.mem, union]

@[simp] theorem mem_diff {i : Nat} {s t : IndexSet} : i ∈ s.diff t ↔ i ∈ s ∧ i ∉ t := by
  simp only [Membership.mem, diff, Nat.testBit_xor, Nat.testBit_and]
  cases s.bits.testBit i <;> cases t.bits.testBit i <;> simp

@[simp] theorem mem_below {i bound : Nat} {s : IndexSet} :
    i ∈ s.below bound ↔ i < bound ∧ i ∈ s := by
  simp [Membership.mem, below, Nat.one_shiftLeft, Nat.testBit_mod_two_pow]

@[simp] theorem mem_ofList {i : Nat} {l : List Nat} : i ∈ ofList l ↔ i ∈ l := by
  induction l with
  | nil => simp [ofList]
  | cons a l ih => rw [ofList, List.foldr_cons, mem_insert, ← ofList, ih, List.mem_cons]

/-- The highest digit is set, those above it are not, and taking it off leaves the others. -/
theorem testBit_sub_log2 {bits i : Nat} (h : bits ≠ 0) :
    bits.testBit i = (decide (i = bits.log2) || (bits - (1 <<< bits.log2)).testBit i) := by
  obtain ⟨k, r, hk, hr, hb⟩ : ∃ k r, bits.log2 = k ∧ r < 2 ^ k ∧ bits = 2 ^ k + r := by
    have hle : 2 ^ bits.log2 ≤ bits := Nat.log2_self_le h
    have hlt : bits < 2 ^ (bits.log2 + 1) := Nat.lt_log2_self
    rw [Nat.pow_succ] at hlt
    exact ⟨_, bits - 2 ^ bits.log2, rfl, by omega, by omega⟩
  rw [Nat.one_shiftLeft, hk, hb, Nat.add_sub_cancel_left]
  rcases Nat.lt_trichotomy i k with hi | rfl | hi
  · simp [Nat.testBit_two_pow_add_gt hi, Nat.ne_of_lt hi]
  · simp [Nat.testBit_two_pow_add_eq, Nat.testBit_lt_two_pow hr]
  · have hki : 2 ^ (k + 1) ≤ 2 ^ i := Nat.pow_le_pow_right (by decide) hi
    rw [Nat.pow_succ] at hki
    rw [Nat.testBit_lt_two_pow (by omega), Nat.testBit_lt_two_pow (by omega)]
    simp [Nat.ne_of_gt hi]

theorem mem_places {bits i : Nat} {rest : List Nat} :
    i ∈ places bits rest ↔ bits.testBit i = true ∨ i ∈ rest := by
  fun_induction places bits rest with
  | case1 => simp
  | case2 bits rest h ih =>
    rw [ih, testBit_sub_log2 h]
    simp only [List.mem_cons, Bool.or_eq_true, decide_eq_true_eq]
    grind

@[simp] theorem mem_toList {i : Nat} {s : IndexSet} : i ∈ s.toList ↔ i ∈ s := by
  rw [toList, mem_places]
  exact or_iff_left List.not_mem_nil

@[simp] theorem mem_image {i : Nat} {s : IndexSet} {f : Nat → List Nat} :
    i ∈ s.image f ↔ ∃ j ∈ s, i ∈ f j := by
  simp [image]

theorem isEmpty_iff {s : IndexSet} : s.isEmpty = true ↔ ∀ i, i ∉ s := by
  refine ⟨fun h i => ?_, fun h => ?_⟩
  · obtain rfl : s = empty := by cases s; simpa [isEmpty, empty] using h
    exact not_mem_empty i
  · obtain rfl : s = empty := ext fun i => by simp [h i]
    rfl

/-- The sets all of whose members are below a bound make up a list. -/
theorem exists_list_of_bounded (bound : Nat) :
    ∃ all : List IndexSet, ∀ s : IndexSet, (∀ i ∈ s, i < bound) → s ∈ all := by
  refine ⟨(List.range (2 ^ bound)).map mk, fun s hs => ?_⟩
  refine List.mem_map.mpr ⟨s.bits, List.mem_range.mpr ?_, rfl⟩
  refine Nat.lt_pow_two_of_testBit _ fun i hi => ?_
  exact Bool.eq_false_iff.mpr fun h => Nat.not_lt_of_ge hi (hs i h)

end IndexSet
end PatternAutomata
