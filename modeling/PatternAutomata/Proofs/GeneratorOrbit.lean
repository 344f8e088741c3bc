import Mathlib.Algebra.Ring.Int.Parity
import Mathlib.Tactic.Ring
import PatternAutomata.Proofs.RawNumbers
/-!
# Every bounded draw ends

The states of the generator are odd, and stepping multiplies them by a number that leaves 5 when
divided by 8. Such a multiplier takes an odd number to each other one of the same residue modulo 4
(`exists_mul_pow_eq`): with `2 ^ n` steps more, the binary digit `n + 2` changes and those below it
do not, so that the digits are put right one after the other.

One state of either residue has two equal halves, and its raw number is zero, which no bound throws
away. So each draw is over within one period, and it keeps to its range (`inRange_settles`).
-/
namespace PatternAutomata.Pcg

/-! ## Powers of the multiplier -/

section
variable {m s t : ℤ}

/-- After `2 ^ n` steps the lowest digit that has changed is the one with number `n + 2`. -/
theorem exists_pow_two_pow_eq (hm : ∃ a, Odd a ∧ m = 1 + 4 * a) (n : ℕ) :
    ∃ a, Odd a ∧ m ^ 2 ^ n = 1 + 2 ^ (n + 2) * a := by
  induction n with
  | zero =>
    obtain ⟨a, ha, rfl⟩ := hm
    exact ⟨a, ha, by ring⟩
  | succ n ih =>
    obtain ⟨a, ha, hpow⟩ := ih
    refine ⟨a + 2 * (2 ^ n * a ^ 2), ha.add_even (even_two_mul _), ?_⟩
    rw [pow_succ, pow_mul, hpow]
    ring

/-- **The orbit of an odd number** under multiplication by `m` has, modulo `2 ^ (n + 2)`, each number
of its residue modulo 4 among the first `2 ^ n`. -/
theorem exists_mul_pow_eq (hm : ∃ a, Odd a ∧ m = 1 + 4 * a) (ht : Odd t) (hst : ∃ c, s = t + 4 * c)
    (n : ℕ) : ∃ k < 2 ^ n, ∃ c, s * m ^ k = t + 2 ^ (n + 2) * c := by
  induction n with
  | zero =>
    obtain ⟨c, rfl⟩ := hst
    exact ⟨0, by norm_num, c, by ring⟩
  | succ n ih =>
    obtain ⟨k, hk, c, hc⟩ := ih
    have hdouble : 2 ^ (n + 1) = 2 ^ n + 2 ^ n := by rw [pow_succ, Nat.mul_two]
    rcases Int.even_or_odd c with ⟨d, rfl⟩ | hodd
    · -- digit `n + 2` is right already
      refine ⟨k, by omega, d, ?_⟩
      rw [hc]
      ring
    · -- it is wrong, and `2 ^ n` steps more change it
      obtain ⟨a, ha, hpow⟩ := exists_pow_two_pow_eq hm n
      obtain ⟨d, hd⟩ : Even (c + t * a) := hodd.add_odd (ht.mul ha)
      refine ⟨k + 2 ^ n, by omega, d + 2 ^ (n + 1) * (c * a), ?_⟩
      calc s * m ^ (k + 2 ^ n)
          = (t + 2 ^ (n + 2) * c) * (1 + 2 ^ (n + 2) * a) := by rw [pow_add, ← mul_assoc, hc, hpow]
        _ = t + 2 ^ (n + 2) * (c + t * a) + 2 ^ (n + 2) * 2 ^ (n + 2) * (c * a) := by ring
        _ = t + 2 ^ (n + 1 + 2) * (d + 2 ^ (n + 1) * (c * a)) := by
          rw [hd]
          ring

end

/-! ## Odd states -/

variable {g g' : Pcg} {range low high n : Nat}

def IsOdd (g : Pcg) : Prop := g.state.toNat % 2 = 1

theorem isOdd_ofSeed (seed : BitVec 64) : (ofSeed seed).IsOdd := by
  rw [IsOdd, ofSeed, BitVec.toNat_or, Nat.or_mod_two_eq_one]
  exact .inr rfl

theorem multiplier_eq : ∃ a : ℤ, Odd a ∧ (multiplier.toNat : ℤ) = 1 + 4 * a :=
  ⟨(multiplier.toNat / 4 : Nat), by decide, by decide⟩

theorem toNat_state_step (g : Pcg) :
    g.step.state.toNat = g.state.toNat * multiplier.toNat % 2 ^ 128 := by
  rw [step, BitVec.toNat_mul]

theorem toNat_state_iterate (g : Pcg) (n : Nat) :
    (step^[n] g).state.toNat = g.state.toNat * multiplier.toNat ^ n % 2 ^ 128 := by
  induction n with
  | zero =>
    have hlt : g.state.toNat < 2 ^ 128 := g.state.isLt
    rw [Function.iterate_zero_apply, pow_zero, mul_one, Nat.mod_eq_of_lt hlt]
  | succ n ih =>
    rw [Function.iterate_succ_apply', toNat_state_step, ih, Nat.mod_mul_mod,
      pow_succ multiplier.toNat, mul_assoc]

theorem IsOdd.step (h : g.IsOdd) : g.step.IsOdd := by
  have hmultiplier : multiplier.toNat % 2 = 1 := by decide
  have hdvd : 2 ∣ 2 ^ 128 := by decide
  rw [IsOdd, toNat_state_step, Nat.mod_mod_of_dvd _ hdvd, Nat.mul_mod, h, hmultiplier]

theorem IsOdd.iterate (h : g.IsOdd) (n : Nat) : (Pcg.step^[n] g).IsOdd := by
  induction n with
  | zero => exact h
  | succ n ih =>
    rw [Function.iterate_succ_apply']
    exact ih.step

/-! ## A raw number that is kept -/

/-- Two equal halves cancel out. -/
theorem output_eq_zero {r : Nat} (hr : r < 4) (h : g.state.toNat = r * (2 ^ 64 + 1)) :
    g.output = 0 := by
  have hhigh : r * (2 ^ 64 + 1) / 2 ^ 64 = r := by omega
  have hhalves : g.state.extractLsb' 64 64 = g.state.extractLsb' 0 64 := by
    apply BitVec.eq_of_toNat_eq
    rw [BitVec.extractLsb'_toNat, BitVec.extractLsb'_toNat, h, Nat.shiftRight_zero,
      Nat.shiftRight_eq_div_pow, hhigh]
    omega
  rw [output, hhalves, BitVec.xor_self]
  simp [BitVec.rotateRight_def]

theorem isKept_zero (range : Nat) : isKept range 0 = true := by
  simp [isKept]

/-- In one period from an odd state there is a state with two equal halves. -/
theorem IsOdd.exists_raw_eq_zero (h : g.IsOdd) : ∃ n < period, g.raw n = 0 := by
  have hodd : g.step.state.toNat % 2 = 1 := h.step
  generalize hr : g.step.state.toNat % 4 = r
  have hr4 : r < 4 := by omega
  -- the state whose halves are both `r` has the residue that all states of this orbit have
  have htarget : Odd ((r * (2 ^ 64 + 1) : Nat) : ℤ) := by
    rw [Int.odd_coe_nat, Nat.odd_iff]
    omega
  have hresidue : ∃ c : ℤ, (g.step.state.toNat : ℤ) = (r * (2 ^ 64 + 1) : Nat) + 4 * c :=
    ⟨(g.step.state.toNat / 4 : Nat) - (r * 2 ^ 62 : Nat), by omega⟩
  obtain ⟨n, hn, c, hc⟩ := exists_mul_pow_eq multiplier_eq htarget hresidue 126
  have hlt : r * (2 ^ 64 + 1) < 2 ^ 128 := by omega
  have hstate : (Pcg.step^[n] g.step).state.toNat = r * (2 ^ 64 + 1) := by
    have hcast : ((g.step.state.toNat * multiplier.toNat ^ n : Nat) : ℤ) % (2 ^ 128 : Nat) =
        (r * (2 ^ 64 + 1) : Nat) := by
      rw [Nat.cast_mul, Nat.cast_pow, hc, Nat.cast_pow, Nat.cast_two, Int.add_mul_emod_self_left]
      exact Int.emod_eq_of_lt (Int.natCast_nonneg _) (by exact_mod_cast hlt)
    rw [toNat_state_iterate]
    exact_mod_cast hcast
  refine ⟨n, hn, ?_⟩
  rw [raw, Function.iterate_succ_apply Pcg.step n g, output_eq_zero hr4 hstate]
  rfl

/-- **Every draw comes to an end**, within one period. -/
theorem IsOdd.exists_settlesAfter (h : g.IsOdd) (range : Nat) :
    ∃ n < period, g.SettlesAfter range n := by
  obtain ⟨n, hn, hraw⟩ := h.exists_raw_eq_zero
  have hkept : isKept range (g.raw n) = true := by
    rw [hraw]
    exact isKept_zero range
  obtain ⟨k, hk, hsettles⟩ := Pcg.exists_settlesAfter hkept
  exact ⟨k, Nat.lt_of_le_of_lt hk hn, hsettles⟩

/-! ## Reachable states -/

/-- The states that seeding and drawing lead to, whatever is drawn in between. -/
inductive Reachable (seeding : BitVec 64 → Pcg) : Pcg → Prop
  | seeded (seed : BitVec 64) : Reachable seeding (seeding seed)
  | drawn {α : Type} {g : Pcg} (d : Draw α) :
      Reachable seeding g → Reachable seeding (g.run d).2

/-- One answer leaves an odd state behind, and so do all of them. -/
theorem IsOdd.run {α : Type} (h : g.IsOdd) (d : Draw α) : (g.run d).2.IsOdd := by
  induction d generalizing g with
  | done a => exact h
  | fail e => exact h
  | ask low high hne next ih =>
    obtain ⟨n, hn, hsettles⟩ := h.exists_settlesAfter (high - low)
    rw [run_ask hne (below_eq hsettles hn)]
    exact ih _ (h.iterate (n + 1))

theorem Reachable.isOdd {seeding : BitVec 64 → Pcg} (hseeding : ∀ seed, (seeding seed).IsOdd)
    (h : Reachable seeding g) : g.IsOdd := by
  induction h with
  | seeded seed => exact hseeding seed
  | drawn d _ ih => exact ih.run d

/-- **A bounded draw ends, inside its range.** As long as seeds give odd states, in each state that
can be reached some number of raw numbers, less than a period, is thrown away and the next one is
kept. The number drawn is in the range, the state after it is odd, and none of the arithmetic leaves
its word: neither the shifted range nor the sum, and no product with a raw number leaves two words. -/
theorem inRange_settles {seeding : BitVec 64 → Pcg} (hseeding : ∀ seed, (seeding seed).IsOdd)
    (hg : Reachable seeding g) (hlt : low < high) (hhigh : high < wordBound) :
    ∃ n < period, ∃ v, g.SettlesAfter (high - low) n ∧ v = low + scale (high - low) (g.raw n) ∧
      g.run (Draw.inRange low high) = (.ok v, step^[n + 1] g) ∧
      low ≤ v ∧ v < high ∧ v < wordBound ∧ (step^[n + 1] g).IsOdd ∧
      (high - low) <<< leadingZeros (high - low) < wordBound ∧
      ∀ k, g.raw k * (high - low) < wordBound * wordBound := by
  have hodd : g.IsOdd := hg.isOdd hseeding
  have hpos : 0 < high - low := Nat.sub_pos_of_lt hlt
  have hrange : high - low < wordBound := Nat.lt_of_le_of_lt (Nat.sub_le high low) hhigh
  obtain ⟨n, hn, hsettles⟩ := hodd.exists_settlesAfter (high - low)
  have hscale : scale (high - low) (g.raw n) < high - low := scale_lt_of_lt hpos (raw_lt g n)
  have hv : low + scale (high - low) (g.raw n) < high := by omega
  refine ⟨n, hn, _, hsettles, rfl, run_inRange hlt (below_eq hsettles hn), Nat.le_add_right _ _, hv,
    hv.trans hhigh, hodd.iterate (n + 1), (shiftLeft_leadingZeros hpos hrange).2, fun k => ?_⟩
  exact Nat.mul_lt_mul'' (raw_lt g k) hrange

/-- A range for which barely more than half of the raw numbers are kept. -/
theorem inRange_settles_wide :
    (∀ seed, (ofSeed seed).IsOdd) ∧ Reachable ofSeed (ofSeed 42) ∧ 3 < 2 ^ 63 + 4 ∧
    2 ^ 63 + 4 < wordBound ∧
    ∃ v, ((ofSeed 42).run (Draw.inRange 3 (2 ^ 63 + 4))).1 = .ok v ∧ 3 ≤ v ∧ v < 2 ^ 63 + 4 := by
  have hg : Reachable ofSeed (ofSeed 42) := .seeded 42
  have hlt : 3 < 2 ^ 63 + 4 := by decide
  have hhigh : 2 ^ 63 + 4 < wordBound := by decide
  obtain ⟨n, -, v, -, -, hrun, hlow, hv, -⟩ := inRange_settles isOdd_ofSeed hg hlt hhigh
  exact ⟨isOdd_ofSeed, hg, hlt, hhigh, v, congrArg Prod.fst hrun, hlow, hv⟩

end PatternAutomata.Pcg
