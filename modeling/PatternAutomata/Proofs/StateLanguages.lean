import Mathlib.Computability.Language
import PatternAutomata.Proofs.Trim
/-!
# The languages of single states

For each composition, the words that lead to each of its states, as equations between languages
(`wordsTo_concat_second` and the like). What a run can tell apart is settled by these languages: two
words are confused if they belong to the same ones (`active_eq_iff`). Each composition confuses
words as its operands do when they are entered later, after a word of a given language
(`confuses_concat`, `confuses_alternate`, `confuses_star`, `confuses_optional`).

No other word is confused with the empty one (`Built.eq_nil_of_active_eq`), because no edge for a
symbol leads to a state in which a run begins.
-/
namespace PatternAutomata.Nfa

open Computability

/-- The words that lead from state 0 to `q`. -/
def wordsTo (a : Nfa) (q : Nat) : Language Char := {w | a.Path 0 w q}

/-- The words that are accepted. -/
def language (a : Nfa) : Language Char := {w | a.accepts w = true}

variable {a b : Nfa} {q : Nat} {w w' : List Char}

theorem mem_wordsTo : w ∈ a.wordsTo q ↔ a.Path 0 w q := Iff.rfl

theorem mem_language : w ∈ a.language ↔ a.accepts w = true := Iff.rfl

namespace Shaped

variable (ha : a.Shaped) (hb : b.Shaped)
include ha

theorem wordsTo_final : a.wordsTo a.final = a.language := by
  ext w
  exact ha.accepts_iff.symm

theorem mem_active_iff : q ∈ a.active w ↔ w ∈ a.wordsTo q := by
  rw [mem_active ha.closed, ha.initial_eq, mem_wordsTo]

/-! ## One after the other -/

theorem wordsTo_concat_first (hq : q < a.final) : (a.concat b).wordsTo q = a.wordsTo q := by
  ext w
  rw [mem_wordsTo, mem_wordsTo, ha.path_concat]
  constructor
  · rintro (⟨-, h⟩ | ⟨u, v, s, -, rfl, -⟩)
    · exact h
    · omega
  · intro h
    exact .inl ⟨hq, h⟩

theorem wordsTo_concat_second :
    (a.concat b).wordsTo (q + a.final) = a.language * b.wordsTo q := by
  ext w
  rw [mem_wordsTo, ha.path_concat, ← ha.wordsTo_final, Language.mem_mul]
  constructor
  · rintro (⟨h, -⟩ | ⟨u, v, s, rfl, hs, hu, hv⟩)
    · omega
    · obtain rfl : q = s := Nat.add_right_cancel hs
      exact ⟨u, hu, v, hv, rfl⟩
  · rintro ⟨u, hu, v, hv, rfl⟩
    exact .inr ⟨u, v, q, rfl, rfl, hu, hv⟩

include hb in
theorem language_concat : (a.concat b).language = a.language * b.language := by
  rw [← (ha.concat hb).wordsTo_final, ha.final_concat, ha.wordsTo_concat_second, hb.wordsTo_final]

/-! ## Either of two -/

include hb in
theorem wordsTo_alternate_zero : (a.alternate b).wordsTo 0 = 1 := by
  ext w
  rw [mem_wordsTo, ha.path_alternate hb, Language.mem_one]
  constructor
  · rintro (⟨-, h⟩ | ⟨s, h, -⟩ | ⟨s, h, -⟩ | ⟨h, -⟩)
    · exact h
    all_goals omega
  · intro h
    exact .inl ⟨rfl, h⟩

include hb in
theorem wordsTo_alternate_first (hq : q < a.size) :
    (a.alternate b).wordsTo (q + 1) = a.wordsTo q := by
  ext w
  rw [mem_wordsTo, mem_wordsTo, ha.path_alternate hb]
  constructor
  · rintro (⟨h, -⟩ | ⟨s, hs, h⟩ | ⟨s, hs, -⟩ | ⟨h, -⟩)
    · omega
    · obtain rfl : q = s := Nat.add_right_cancel hs
      exact h
    all_goals omega
  · intro h
    exact .inr (.inl ⟨q, rfl, h⟩)

include hb in
theorem wordsTo_alternate_second (hq : q < b.size) :
    (a.alternate b).wordsTo (q + (a.size + 1)) = b.wordsTo q := by
  have hsa := ha.size_eq
  ext w
  rw [mem_wordsTo, mem_wordsTo, ha.path_alternate hb]
  constructor
  · rintro (⟨h, -⟩ | ⟨s, hs, h⟩ | ⟨s, hs, h⟩ | ⟨h, -⟩)
    · omega
    · have hle := ha.path_le_final h
      omega
    · obtain rfl : q = s := Nat.add_right_cancel hs
      exact h
    · omega
  · intro h
    exact .inr (.inr (.inl ⟨q, rfl, h⟩))

include hb in
theorem language_alternate : (a.alternate b).language = a.language + b.language := by
  ext w
  rw [mem_language, ha.accepts_alternate hb]
  exact Iff.rfl

/-! ## Any number of times, or not at all -/

theorem repeated_iff : Repeated (fun u => a.Path 0 u a.final) w ↔ w ∈ a.language∗ := by
  rw [← ha.wordsTo_final]
  exact Iff.rfl

theorem wordsTo_star_zero : a.star.wordsTo 0 = a.language∗ := by
  ext w
  rw [mem_wordsTo, ha.path_star, ha.repeated_iff]
  constructor
  · rintro (⟨-, h⟩ | ⟨u, v, s, -, h, -⟩ | ⟨h, -⟩)
    · exact h
    all_goals omega
  · intro h
    exact .inl ⟨rfl, h⟩

theorem wordsTo_star_inside (hq : q < a.size) :
    a.star.wordsTo (q + 1) = a.language∗ * a.wordsTo q := by
  ext w
  rw [mem_wordsTo, ha.path_star, Language.mem_mul]
  constructor
  · rintro (⟨h, -⟩ | ⟨u, v, s, rfl, hs, hu, hv⟩ | ⟨h, -⟩)
    · omega
    · obtain rfl : q = s := Nat.add_right_cancel hs
      exact ⟨u, ha.repeated_iff.mp hu, v, hv, rfl⟩
    · omega
  · rintro ⟨u, hu, v, hv, rfl⟩
    exact .inr (.inl ⟨u, v, q, rfl, rfl, ha.repeated_iff.mpr hu, hv⟩)

theorem language_star : a.star.language = a.language∗ := by
  ext w
  rw [mem_language, ha.accepts_star]
  exact Iff.rfl

theorem wordsTo_optional_zero : a.optional.wordsTo 0 = 1 := by
  ext w
  rw [mem_wordsTo, ha.path_optional, Language.mem_one]
  constructor
  · rintro (⟨-, h⟩ | ⟨s, h, -⟩ | ⟨h, -⟩)
    · exact h
    all_goals omega
  · intro h
    exact .inl ⟨rfl, h⟩

theorem wordsTo_optional_inside (hq : q < a.size) :
    a.optional.wordsTo (q + 1) = a.wordsTo q := by
  ext w
  rw [mem_wordsTo, mem_wordsTo, ha.path_optional]
  constructor
  · rintro (⟨h, -⟩ | ⟨s, hs, h⟩ | ⟨h, -⟩)
    · omega
    · obtain rfl : q = s := Nat.add_right_cancel hs
      exact h
    · omega
  · intro h
    exact .inr (.inl ⟨q, rfl, h⟩)

theorem language_optional : a.optional.language = 1 + a.language := by
  ext w
  rw [mem_language, ha.accepts_optional]
  exact Iff.rfl

end Shaped

/-! ## What is confused -/

/-- Entered after a word of `before`, the automaton can be in the same states after `w` as after
`w'`. -/
def Confuses (a : Nfa) (before : Language Char) (w w' : List Char) : Prop :=
  ∀ q < a.size, w ∈ before * a.wordsTo q ↔ w' ∈ before * a.wordsTo q

namespace Shaped

variable {before : Language Char} (ha : a.Shaped) (hb : b.Shaped)
include ha

/-- **Runs are in the same states after words that are confused.** -/
theorem active_eq_iff : a.active w = a.active w' ↔ a.Confuses 1 w w' := by
  constructor
  · intro h q _
    rw [one_mul, ← ha.mem_active_iff, ← ha.mem_active_iff, h]
  · intro h
    ext q
    rw [ha.mem_active_iff, ha.mem_active_iff]
    by_cases hq : q < a.size
    · simpa only [one_mul] using h q hq
    · have hnone : ∀ u, u ∉ a.wordsTo q := by
        intro u hu
        have hle := ha.path_le_final hu
        have hsize := ha.size_eq
        omega
      exact iff_of_false (hnone w) (hnone w')

theorem mem_language_of_confuses (h : a.Confuses before w w') :
    w ∈ before * a.language ↔ w' ∈ before * a.language := by
  rw [← ha.wordsTo_final]
  exact h a.final ha.final_lt_size

include hb

theorem confuses_concat :
    (a.concat b).Confuses before w w' ↔
      (∀ q < a.final, w ∈ before * a.wordsTo q ↔ w' ∈ before * a.wordsTo q) ∧
        b.Confuses (before * a.language) w w' := by
  have hsb := hb.size_eq
  have hsize := ha.size_concat hb
  constructor
  · intro h
    constructor
    · intro q hq
      simpa only [ha.wordsTo_concat_first hq] using h q (by omega)
    · intro q hq
      simpa only [ha.wordsTo_concat_second, ← mul_assoc] using h (q + a.final) (by omega)
  · rintro ⟨hfirst, hsecond⟩ q hq
    rcases ha.cases_concat hb hq with hqa | ⟨s, hs, rfl⟩
    · rw [ha.wordsTo_concat_first hqa]
      exact hfirst q hqa
    · rw [ha.wordsTo_concat_second, ← mul_assoc]
      exact hsecond s hs

theorem confuses_alternate :
    (a.alternate b).Confuses before w w' ↔
      (w ∈ before ↔ w' ∈ before) ∧ a.Confuses before w w' ∧ b.Confuses before w w' := by
  have hsize := ha.size_alternate hb
  have hfinal := (ha.alternate hb).wordsTo_final
  rw [final_alternate, ha.language_alternate hb] at hfinal
  constructor
  · intro h
    refine ⟨?_, ?_, ?_⟩
    · simpa only [ha.wordsTo_alternate_zero hb, mul_one] using h 0 (by omega)
    · intro q hq
      simpa only [ha.wordsTo_alternate_first hb hq] using h (q + 1) (by omega)
    · intro q hq
      simpa only [ha.wordsTo_alternate_second hb hq] using h (q + (a.size + 1)) (by omega)
  · rintro ⟨hzero, hfirst, hsecond⟩ q hq
    rcases ha.cases_alternate hb hq with rfl | ⟨s, hs, rfl⟩ | ⟨s, hs, rfl⟩ | rfl
    · rw [ha.wordsTo_alternate_zero hb, mul_one]
      exact hzero
    · rw [ha.wordsTo_alternate_first hb hs]
      exact hfirst s hs
    · rw [ha.wordsTo_alternate_second hb hs]
      exact hsecond s hs
    · rw [hfinal, mul_add]
      exact or_congr (ha.mem_language_of_confuses hfirst) (hb.mem_language_of_confuses hsecond)

omit hb

/-- What `star` and `optional` share: the operand is entered after any word of `loop`. -/
theorem confuses_wrapped {c : Nfa} {loop : Language Char} (hsize : c.size = a.size + 2)
    (hzero : c.wordsTo 0 = loop)
    (hinside : ∀ q < a.size, c.wordsTo (q + 1) = loop * a.wordsTo q)
    (hfinal : c.wordsTo (a.size + 1) = loop + loop * a.language) :
    c.Confuses before w w' ↔
      (w ∈ before * loop ↔ w' ∈ before * loop) ∧ a.Confuses (before * loop) w w' := by
  constructor
  · intro h
    constructor
    · simpa only [hzero] using h 0 (by omega)
    · intro q hq
      simpa only [hinside q hq, ← mul_assoc] using h (q + 1) (by omega)
  · rintro ⟨hloop, hoperand⟩ q hq
    rw [hsize] at hq
    rcases cases_wrapped hq with rfl | ⟨s, hs, rfl⟩ | rfl
    · rw [hzero]
      exact hloop
    · rw [hinside s hs, ← mul_assoc]
      exact hoperand s hs
    · rw [hfinal, mul_add, ← mul_assoc]
      exact or_congr hloop (ha.mem_language_of_confuses hoperand)

theorem confuses_star :
    a.star.Confuses before w w' ↔
      (w ∈ before * a.language∗ ↔ w' ∈ before * a.language∗) ∧
        a.Confuses (before * a.language∗) w w' := by
  refine ha.confuses_wrapped ha.size_star ha.wordsTo_star_zero (fun _ => ha.wordsTo_star_inside) ?_
  have hfinal := ha.star.wordsTo_final
  rw [final_star, ha.language_star] at hfinal
  have hloop : a.language∗ * a.language ≤ a.language∗ := kstar_mul_le_kstar
  rw [hfinal, add_eq_left_iff_le.mpr hloop]

theorem confuses_optional :
    a.optional.Confuses before w w' ↔ (w ∈ before ↔ w' ∈ before) ∧ a.Confuses before w w' := by
  have hfinal := ha.optional.wordsTo_final
  rw [final_optional, ha.language_optional, ← one_mul a.language] at hfinal
  have hinside : ∀ q < a.size, a.optional.wordsTo (q + 1) = 1 * a.wordsTo q := by
    intro q hq
    rw [ha.wordsTo_optional_inside hq, one_mul]
  rw [ha.confuses_wrapped ha.size_optional ha.wordsTo_optional_zero hinside hfinal, mul_one]

include hb in
/-- After a repetition the state in which the operands meet tells no more than the initial one. -/
theorem confuses_star_concat :
    (a.star.concat b).Confuses before w w' ↔
      a.star.Confuses before w w' ∧ b.Confuses (before * a.language∗) w w' := by
  have hstar := ha.star
  have hfinal := hstar.wordsTo_final
  rw [ha.language_star] at hfinal
  rw [hstar.confuses_concat hb, ha.language_star]
  refine and_congr ?_ Iff.rfl
  constructor
  · intro h q hq
    by_cases hlast : q < a.star.final
    · exact h q hlast
    · have hsize := hstar.size_eq
      obtain rfl : q = a.star.final := by omega
      rw [hfinal, ← ha.wordsTo_star_zero]
      exact h 0 hstar.final_pos
  · intro h q hq
    have hsize := hstar.size_eq
    exact h q (by omega)

end Shaped

/-! ## The empty word is confused with no other -/

theorem nil_mem_mul {l m : Language Char} : [] ∈ l * m ↔ [] ∈ l ∧ [] ∈ m := by
  simp [Language.mem_mul]

/-- No edge for a symbol leads to a state in which a run begins. -/
theorem Built.nil_notMem_wordsTo (h : a.Built) {q r : Nat} {c : Char}
    (hs : a.Step q (.symbol c) r) : [] ∉ a.wordsTo r := by
  induction h generalizing q r with
  | symbol d =>
    obtain ⟨-, -, rfl⟩ := Shaped.step_symbol.mp hs
    rw [mem_wordsTo, Shaped.path_symbol]
    simp
  | @concat a b ha hb iha ihb =>
    have ha' := ha.shaped
    rcases ha'.step_concat.mp hs with hp | ⟨p, s, -, rfl, hp⟩
    · rcases Nat.lt_or_eq_of_le (ha'.target_le_final hp) with hlt | rfl
      · rw [ha'.wordsTo_concat_first hlt]
        exact iha hp
      · -- the state in which the operands meet: the first operand would accept the empty word
        have hmeet := ha'.wordsTo_concat_second (b := b) (q := 0)
        rw [Nat.zero_add] at hmeet
        rw [hmeet, nil_mem_mul, ← ha'.wordsTo_final]
        exact fun h => iha hp h.1
    · rw [ha'.wordsTo_concat_second, nil_mem_mul]
      exact fun h => ihb hp h.2
  | @alternate a b ha hb iha ihb =>
    have ha' := ha.shaped
    have hb' := hb.shaped
    rcases (ha'.step_alternate hb').mp hs with
      ⟨-, hl, -⟩ | ⟨p, s, -, rfl, hp⟩ | ⟨p, s, -, rfl, hp⟩ | ⟨-, hl, -⟩
    · cases hl
    · rw [ha'.wordsTo_alternate_first hb' (ha'.closed _ _ _ hp)]
      exact iha hp
    · rw [ha'.wordsTo_alternate_second hb' (hb'.closed _ _ _ hp)]
      exact ihb hp
    · cases hl
  | @star a ha iha =>
    have ha' := ha.shaped
    rcases ha'.step_star.mp hs with ⟨-, hl, -⟩ | ⟨p, s, -, rfl, hp⟩ | ⟨-, hl, -⟩
    · cases hl
    · rw [ha'.wordsTo_star_inside (ha'.closed _ _ _ hp), nil_mem_mul]
      exact fun h => iha hp h.2
    · cases hl
  | @optional a ha iha =>
    have ha' := ha.shaped
    rcases ha'.step_optional.mp hs with ⟨-, hl, -⟩ | ⟨p, s, -, rfl, hp⟩ | ⟨-, hl, -⟩
    · cases hl
    · rw [ha'.wordsTo_optional_inside (ha'.closed _ _ _ hp)]
      exact iha hp
    · cases hl

/-- A run that has consumed a symbol is in a state that this symbol led to. -/
theorem exists_step_of_mem_active (ha : a.Closed) {c : Char} (h : q ∈ a.active (w ++ [c])) :
    ∃ p r, a.Step p (.symbol c) r ∧ r ∈ a.active (w ++ [c]) := by
  rw [active_concat] at h ⊢
  obtain ⟨r, hr, -⟩ := (mem_closure ha).mp h
  obtain ⟨p, -, hpr⟩ := mem_moveOn.mp hr
  exact ⟨p, r, hpr, (mem_closure ha).mpr ⟨r, hr, .refl⟩⟩

/-- **No run comes back to the states in which it began.** -/
theorem Built.eq_nil_of_active_eq (ha : a.Built) (h : a.active w = a.active []) : w = [] := by
  have hs := ha.shaped
  cases w using List.reverseRecOn with
  | nil => rfl
  | append_singleton u c =>
    exfalso
    have hzero : 0 ∈ a.active [] := hs.mem_active_iff.mpr .refl
    rw [← h] at hzero
    obtain ⟨p, r, hstep, hr⟩ := exists_step_of_mem_active hs.closed hzero
    rw [h, hs.mem_active_iff] at hr
    exact ha.nil_notMem_wordsTo hstep hr

theorem Built.eq_nil_iff_of_confuses (ha : a.Built) (h : a.Confuses 1 w w') :
    w = [] ↔ w' = [] := by
  rw [← ha.shaped.active_eq_iff] at h
  constructor
  · rintro rfl
    exact ha.eq_nil_of_active_eq h.symm
  · rintro rfl
    exact ha.eq_nil_of_active_eq h

end PatternAutomata.Nfa
