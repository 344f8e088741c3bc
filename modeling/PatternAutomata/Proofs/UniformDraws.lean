import Mathlib.Algebra.BigOperators.Ring.Nat
import Mathlib.Algebra.Order.Floor.Div
import Mathlib.Order.Interval.Finset.Nat
import PatternAutomata.Proofs.GeneratorOrbit
/-!
# Bounded draws favour no number

The raw numbers that are kept and give `v` are those whose product with the range falls into a
window above `v * 2 ^ 64`. All windows are as long as the same multiple of the range, so that each
holds the same number of products, wherever it begins (`card_kept_scale`).
-/
namespace PatternAutomata.Pcg

variable {g : Pcg} {range raw low high n v : Nat}

/-- The raw numbers that are kept. -/
def kept (range : Nat) : Finset Nat :=
  (Finset.range wordBound).filter fun raw => isKept range raw = true

theorem mem_kept : raw ∈ kept range ↔ raw < wordBound ∧ isKept range raw = true := by
  rw [kept, Finset.mem_filter, Finset.mem_range]

theorem zone_add_one (h : 0 < range) : zone range + 1 = range * 2 ^ leadingZeros range := by
  have hpos : 0 < range * 2 ^ leadingZeros range := Nat.mul_pos h (Nat.two_pow_pos _)
  rw [zone, Nat.shiftLeft_eq, Nat.sub_add_cancel hpos]

theorem mul_two_pow_leadingZeros_lt (h : 0 < range) (hrange : range < wordBound) :
    range * 2 ^ leadingZeros range < wordBound := by
  rw [← Nat.shiftLeft_eq]
  exact (shiftLeft_leadingZeros h hrange).2

/-- Whether a raw number is kept and what it gives depends on where its product lies. -/
theorem isKept_and_scale_eq_iff (h : 0 < range) (hrange : range < wordBound) :
    isKept range raw = true ∧ scale range raw = v ↔
      v * wordBound ≤ raw * range ∧
        raw * range < v * wordBound + range * 2 ^ leadingZeros range := by
  have hzone : zone range + 1 = range * 2 ^ leadingZeros range := zone_add_one h
  have hfits : range * 2 ^ leadingZeros range < wordBound := mul_two_pow_leadingZeros_lt h hrange
  have hword : 0 < wordBound := Nat.zero_lt_of_lt hrange
  rw [← hzone] at hfits ⊢
  rw [isKept, decide_eq_true_eq, scale]
  generalize raw * range = product
  have hsplit : wordBound * (product / wordBound) + product % wordBound = product :=
    Nat.div_add_mod product wordBound
  constructor
  · rintro ⟨hle, rfl⟩
    rw [Nat.mul_comm _ wordBound]
    omega
  · rintro ⟨hlow, hhigh⟩
    have hv : product / wordBound = v := by
      refine Nat.div_eq_of_lt_le hlow ?_
      rw [Nat.succ_mul]
      omega
    rw [hv, Nat.mul_comm] at hsplit
    exact ⟨by omega, hv⟩

theorem add_mul_ceilDiv (h : 0 < range) (m n : Nat) :
    (m + range * n) ⌈/⌉ range = m ⌈/⌉ range + n := by
  have hsum : m + range * n + range - 1 = m + range - 1 + range * n := by omega
  rw [Nat.ceilDiv_eq_add_pred_div, Nat.ceilDiv_eq_add_pred_div, hsum, Nat.add_mul_div_left _ _ h]

/-- The window of `v` holds the products of so many raw numbers in a row, from the first on that
reaches it. -/
theorem kept_scale_eq_Ico (h : 0 < range) (hrange : range < wordBound) (hv : v < range) :
    (kept range).filter (fun raw => scale range raw = v) =
      Finset.Ico (v * wordBound ⌈/⌉ range) (v * wordBound ⌈/⌉ range + 2 ^ leadingZeros range) := by
  ext raw
  have hlow : v * wordBound ≤ raw * range ↔ v * wordBound ⌈/⌉ range ≤ raw := by
    rw [ceilDiv_le_iff_le_mul h, Nat.mul_comm raw]
  have hhigh : raw * range < v * wordBound + range * 2 ^ leadingZeros range ↔
      raw < v * wordBound ⌈/⌉ range + 2 ^ leadingZeros range := by
    rw [← add_mul_ceilDiv h, ← not_le, ← not_le, ceilDiv_le_iff_le_mul h, Nat.mul_comm raw]
  -- not even the window of the greatest number reaches beyond the products of the raw numbers
  have hword : raw * range < v * wordBound + range * 2 ^ leadingZeros range → raw < wordBound := by
    intro hproduct
    have hfits : range * 2 ^ leadingZeros range < wordBound := mul_two_pow_leadingZeros_lt h hrange
    have hwindow : (v + 1) * wordBound ≤ range * wordBound := Nat.mul_le_mul_right _ hv
    rw [Nat.succ_mul, Nat.mul_comm range] at hwindow
    have hlt : raw * range < wordBound * range := by omega
    exact Nat.lt_of_mul_lt_mul_right hlt
  rw [Finset.mem_filter, mem_kept, Finset.mem_Ico, and_assoc, isKept_and_scale_eq_iff h hrange,
    hlow, hhigh]
  constructor
  · rintro ⟨-, hwindow⟩
    exact hwindow
  · intro hwindow
    exact ⟨hword (hhigh.mpr hwindow.2), hwindow⟩

/-- **Each number below the range is given equally often.** -/
theorem card_kept_scale (h : 0 < range) (hrange : range < wordBound) (hv : v < range) :
    ((kept range).filter fun raw => scale range raw = v).card = 2 ^ leadingZeros range := by
  rw [kept_scale_eq_Ico h hrange hv, Nat.card_Ico, Nat.add_sub_cancel_left]

theorem card_kept (h : 0 < range) (hrange : range < wordBound) :
    (kept range).card = range * 2 ^ leadingZeros range := by
  have hscale : ∀ raw ∈ kept range, scale range raw ∈ Finset.range range := fun raw hraw =>
    Finset.mem_range.mpr (scale_lt_of_lt h (mem_kept.mp hraw).1)
  calc (kept range).card
      = ∑ v ∈ Finset.range range, ((kept range).filter fun raw => scale range raw = v).card :=
        Finset.card_eq_sum_card_fiberwise hscale
    _ = ∑ _v ∈ Finset.range range, 2 ^ leadingZeros range :=
        Finset.sum_congr rfl fun v hv => card_kept_scale h hrange (Finset.mem_range.mp hv)
    _ = range * 2 ^ leadingZeros range := by
        rw [Finset.sum_const, Finset.card_range, smul_eq_mul]

/-! ## Draws -/

/-- **A bounded draw is exactly uniform in the raw number.** A raw number that is kept decides what
is drawn, and one that is not only moves the generator on. For each number of the range, as many raw
numbers are kept and give it; together they are at least half of all raw numbers. So of those that
are kept for `n`, one in `n` makes a draw with one chance in `n` come true. -/
theorem inRange_uniform (hlt : low < high) (hhigh : high < wordBound) :
    (∀ g : Pcg, isKept (high - low) (g.raw 0) = true →
      g.run (Draw.inRange low high) = (.ok (low + scale (high - low) (g.raw 0)), g.step)) ∧
    (∀ g : Pcg, g.IsOdd → isKept (high - low) (g.raw 0) = false →
      g.run (Draw.inRange low high) = g.step.run (Draw.inRange low high)) ∧
    (∀ v, low ≤ v → v < high →
      ((kept (high - low)).filter fun raw => low + scale (high - low) raw = v).card =
        2 ^ leadingZeros (high - low)) ∧
    wordBound ≤ 2 * (kept (high - low)).card ∧
    ∀ n, 0 < n → n < wordBound →
      (∀ g : Pcg, isKept n (g.raw 0) = true →
        g.run (Draw.oneIn n) = (.ok (scale n (g.raw 0) == 0), g.step)) ∧
      n * ((kept n).filter fun raw => scale n raw = 0).card = (kept n).card := by
  have hpos : 0 < high - low := Nat.sub_pos_of_lt hlt
  have hrange : high - low < wordBound := Nat.lt_of_le_of_lt (Nat.sub_le high low) hhigh
  refine ⟨fun g hkept => run_inRange hlt (below_of_isKept hkept), ?_, ?_, ?_, ?_⟩
  · intro g hg hthrown
    obtain ⟨n, hn, hsettles⟩ := hg.exists_settlesAfter (high - low)
    have hstep : g.below (high - low) = g.step.below (high - low) := below_step hsettles hn hthrown
    -- the draw gets a name before the two runs are compared, as its search must stay closed
    cases hbelow : g.step.below (high - low) with
    | mk v g' => rw [run_inRange hlt hbelow, run_inRange hlt (hstep.trans hbelow)]
  · intro v hlow hv
    have hoffset : ∀ raw ∈ kept (high - low),
        low + scale (high - low) raw = v ↔ scale (high - low) raw = v - low := by
      intro raw _
      omega
    rw [Finset.filter_congr hoffset]
    exact card_kept_scale hpos hrange (by omega)
  · rw [card_kept hpos hrange, ← Nat.shiftLeft_eq]
    exact (shiftLeft_leadingZeros hpos hrange).1
  · intro n hn hbound
    refine ⟨fun g hkept => run_oneIn hn (below_of_isKept hkept), ?_⟩
    rw [card_kept_scale hn hbound hn, card_kept hn hbound]

/-- Each number of a range of seven is given by an eighth of all raw numbers. -/
theorem inRange_uniform_seven :
    3 < 10 ∧ 10 < wordBound ∧
    ((kept 7).filter fun raw => 3 + scale 7 raw = 5).card = 2 ^ 61 ∧ wordBound = 8 * 2 ^ 61 := by
  have hlt : 3 < 10 := by decide
  have hhigh : 10 < wordBound := by decide
  obtain ⟨-, -, hcard, -⟩ := inRange_uniform hlt hhigh
  exact ⟨hlt, hhigh, hcard 5 (by decide) (by decide), rfl⟩

end PatternAutomata.Pcg
