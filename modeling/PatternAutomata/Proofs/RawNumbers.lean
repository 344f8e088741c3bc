import Mathlib.Logic.Function.Iterate
import PatternAutomata.Draw.Pcg
import PatternAutomata.Proofs.Answers
/-!
# Which raw number is kept

A number below a bound is drawn by throwing raw numbers away until one is kept. `SettlesAfter` says
how many are thrown away, and if these are less than a period, the draw is the kept one scaled down
(`below_eq`). One that is thrown away only moves the generator on (`below_step`).
-/
namespace PatternAutomata.Pcg

variable {g g' : Pcg} {range tries low high n v : Nat}

/-- The raw number that comes after `n` others. -/
def raw (g : Pcg) (n : Nat) : Nat := (step^[n + 1] g).output.toNat

theorem raw_lt (g : Pcg) (n : Nat) : g.raw n < wordBound := (step^[n + 1] g).output.isLt

theorem raw_step (g : Pcg) (n : Nat) : g.step.raw n = g.raw (n + 1) := by
  rw [raw, raw, Function.iterate_succ_apply step (n + 1) g]

/-- The first `n` raw numbers are thrown away, and the next one is kept. -/
structure SettlesAfter (g : Pcg) (range n : Nat) : Prop where
  thrown : ∀ k < n, isKept range (g.raw k) = false
  kept : isKept range (g.raw n) = true

theorem settlesAfter_zero : g.SettlesAfter range 0 ↔ isKept range (g.raw 0) = true := by
  constructor
  · intro h
    exact h.kept
  · intro h
    exact ⟨fun k hk => absurd hk (Nat.not_lt_zero k), h⟩

theorem settlesAfter_succ : g.SettlesAfter range (n + 1) ↔
    isKept range (g.raw 0) = false ∧ g.step.SettlesAfter range n := by
  constructor
  · intro h
    refine ⟨h.thrown 0 (Nat.succ_pos n), fun k hk => ?_, ?_⟩
    · rw [raw_step]
      exact h.thrown (k + 1) (Nat.succ_lt_succ hk)
    · rw [raw_step]
      exact h.kept
  · rintro ⟨hfirst, hrest⟩
    refine ⟨fun k hk => ?_, ?_⟩
    · cases k with
      | zero => exact hfirst
      | succ k =>
        rw [← raw_step]
        exact hrest.thrown k (Nat.lt_of_succ_lt_succ hk)
    · rw [← raw_step]
      exact hrest.kept

/-- If a raw number is kept at all, there is a first one. -/
theorem exists_settlesAfter (h : isKept range (g.raw n) = true) :
    ∃ k ≤ n, g.SettlesAfter range k := by
  induction n generalizing g with
  | zero => exact ⟨0, Nat.le_refl 0, settlesAfter_zero.mpr h⟩
  | succ n ih =>
    cases hfirst : isKept range (g.raw 0) with
    | true => exact ⟨0, Nat.zero_le _, settlesAfter_zero.mpr hfirst⟩
    | false =>
      rw [← raw_step] at h
      obtain ⟨k, hk, hsettles⟩ := ih h
      exact ⟨k + 1, Nat.succ_le_succ hk, settlesAfter_succ.mpr ⟨hfirst, hsettles⟩⟩

theorem firstKept_succ : firstKept range (tries + 1) g =
    if isKept range (g.raw 0) = true then some (scale range (g.raw 0), g.step)
    else firstKept range tries g.step := by
  rw [firstKept, raw, Function.iterate_one]

theorem firstKept_of_settlesAfter (h : g.SettlesAfter range n) (hn : n < tries) :
    firstKept range tries g = some (scale range (g.raw n), step^[n + 1] g) := by
  induction n generalizing g tries with
  | zero =>
    obtain ⟨tries, rfl⟩ := Nat.exists_eq_add_one_of_ne_zero (Nat.ne_zero_of_lt hn)
    rw [firstKept_succ, if_pos (settlesAfter_zero.mp h), Function.iterate_one]
  | succ n ih =>
    obtain ⟨tries, rfl⟩ := Nat.exists_eq_add_one_of_ne_zero (Nat.ne_zero_of_lt hn)
    obtain ⟨hfirst, hrest⟩ := settlesAfter_succ.mp h
    have hthrown : ¬ isKept range (g.raw 0) = true := by simp [hfirst]
    rw [firstKept_succ, if_neg hthrown, ih hrest (Nat.lt_of_succ_lt_succ hn), raw_step,
      Function.iterate_succ_apply step (n + 1) g]

/-- **What is drawn is the first raw number that is kept**, scaled down, and the generator is left
in the state that it belongs to. -/
theorem below_eq (h : g.SettlesAfter range n) (hn : n < period) :
    g.below range = (scale range (g.raw n), step^[n + 1] g) := by
  rw [below, firstKept_of_settlesAfter h hn, Option.getD_some]

theorem below_of_isKept (h : isKept range (g.raw 0) = true) :
    g.below range = (scale range (g.raw 0), g.step) := by
  have hperiod : 0 < period := by decide
  rw [below_eq (settlesAfter_zero.mpr h) hperiod, Function.iterate_one]

/-- A raw number that is thrown away only moves the generator on. -/
theorem below_step (h : g.SettlesAfter range n) (hn : n < period)
    (hthrown : isKept range (g.raw 0) = false) : g.below range = g.step.below range := by
  cases n with
  | zero =>
    rw [settlesAfter_zero.mp h] at hthrown
    cases hthrown
  | succ n =>
    rw [below_eq h hn, below_eq (settlesAfter_succ.mp h).2 (Nat.lt_of_succ_lt hn), raw_step,
      Function.iterate_succ_apply step (n + 1) g]

/-! ## Draws from the generator -/

theorem answer_source (h : g.below (high - low) = (v, g')) :
    source.answer low high g = (low + v, g') := by
  simp only [source, h]

theorem run_ask {α : Type} {next : Nat → Draw α} (hlt : low < high)
    (h : g.below (high - low) = (v, g')) :
    g.run (.ask low high hlt next) = g'.run (next (low + v)) :=
  Draw.Source.run_ask (answer_source h)

theorem run_inRange (hlt : low < high) (h : g.below (high - low) = (v, g')) :
    g.run (Draw.inRange low high) = (.ok (low + v), g') := by
  rw [Draw.inRange, dif_pos hlt, run_ask hlt h]
  rfl

theorem run_oneIn (hpos : 0 < n) (h : g.below n = (v, g')) :
    g.run (Draw.oneIn n) = (.ok (v == 0), g') := by
  rw [← Nat.sub_zero n] at h
  rw [Draw.oneIn, Draw.inRange, dif_pos hpos]
  refine (run_ask hpos h).trans ?_
  rw [Nat.zero_add]
  rfl

/-! ## The zone -/

theorem scale_lt_of_lt {raw : Nat} (h : 0 < range) (hraw : raw < wordBound) :
    scale range raw < range :=
  Nat.div_lt_of_lt_mul (Nat.mul_lt_mul_of_pos_right hraw h)

theorem leadingZeros_eq (h : 0 < range) : leadingZeros range = 63 - range.log2 :=
  if_neg (Nat.ne_of_gt h)

/-- Shifted up by its leading zeros, `range` fills the word but does not leave it. -/
theorem shiftLeft_leadingZeros (h : 0 < range) (hrange : range < wordBound) :
    wordBound ≤ 2 * (range <<< leadingZeros range) ∧ range <<< leadingZeros range < wordBound := by
  have hne : range ≠ 0 := Nat.ne_of_gt h
  have hlog : range.log2 < 64 := (Nat.log2_lt hne).mpr hrange
  have hlow : 2 ^ range.log2 ≤ range := Nat.log2_self_le hne
  have hhigh : range < 2 ^ (range.log2 + 1) := Nat.lt_log2_self
  have hpow : 2 ^ range.log2 * 2 ^ leadingZeros range = 2 ^ 63 := by
    rw [leadingZeros_eq h, ← Nat.pow_add]
    congr 1
    omega
  have hbound : wordBound = 2 * 2 ^ 63 := rfl
  have hpos : 0 < 2 ^ leadingZeros range := Nat.two_pow_pos _
  rw [Nat.shiftLeft_eq, hbound, ← hpow]
  constructor
  · exact Nat.mul_le_mul_left 2 (Nat.mul_le_mul_right _ hlow)
  · calc range * 2 ^ leadingZeros range
        < 2 ^ (range.log2 + 1) * 2 ^ leadingZeros range := Nat.mul_lt_mul_of_pos_right hhigh hpos
      _ = 2 * (2 ^ range.log2 * 2 ^ leadingZeros range) := by
        rw [Nat.pow_succ, Nat.mul_comm _ 2, Nat.mul_assoc]

end PatternAutomata.Pcg
