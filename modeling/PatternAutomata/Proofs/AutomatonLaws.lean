import PatternAutomata.Compile
import PatternAutomata.Proofs.CanonicalNumbering
import PatternAutomata.Proofs.StateLanguages
/-!
# Laws of deterministic automata

The deterministic automaton of a nondeterministic one is known by two things: the language, and
which words runs confuse (`Dfa.ofNfa_eq_iff`). So an equation between patterns holds for their
deterministic automata, state numbers included, if both sides have one language and confuse the same
words. Alternation is commutative, associative and idempotent in this sense (`alternation_laws`),
and iteration has its usual laws (`iteration_laws`).
-/
namespace PatternAutomata

open Computability

/-! ## Iteration in Kleene algebras -/

section
variable {α : Type} [KleeneAlgebra α] {x y m : α}

theorem kstar_one_add : (1 + x)∗ = x∗ := by
  refine le_antisymm ?_ (kstar_mono le_add_self)
  calc (1 + x)∗ ≤ x∗∗ := kstar_mono (add_le one_le_kstar le_kstar)
    _ = x∗ := kstar_idem x

theorem kstar_kstar_add_kstar : (x∗ + y∗)∗ = (x + y)∗ := by
  refine le_antisymm ?_ (kstar_mono (add_le_add le_kstar le_kstar))
  have hx : x∗ ≤ (x + y)∗ := kstar_mono le_self_add
  have hy : y∗ ≤ (x + y)∗ := kstar_mono le_add_self
  calc (x∗ + y∗)∗ ≤ (x + y)∗∗ := kstar_mono (add_le hx hy)
    _ = (x + y)∗ := kstar_idem _

theorem kstar_kstar_mul_kstar : (x∗ * y∗)∗ = (x + y)∗ := by
  apply le_antisymm
  · have hx : x∗ ≤ (x + y)∗ := kstar_mono le_self_add
    have hy : y∗ ≤ (x + y)∗ := kstar_mono le_add_self
    calc (x∗ * y∗)∗ ≤ ((x + y)∗ * (x + y)∗)∗ := kstar_mono (mul_le_mul' hx hy)
      _ = (x + y)∗ := by rw [kstar_mul_kstar, kstar_idem]
  · have hx : x ≤ x∗ * y∗ := le_kstar.trans (le_mul_of_one_le_right' one_le_kstar)
    have hy : y ≤ x∗ * y∗ := le_kstar.trans (le_mul_of_one_le_left' one_le_kstar)
    exact kstar_mono (add_le hx hy)

/-- A repetition takes in the repetition of less. -/
theorem kstar_mul_kstar_of_le (h : x ≤ m) : m∗ * x∗ = m∗ := by
  apply le_antisymm
  · calc m∗ * x∗ ≤ m∗ * m∗ := mul_le_mul' le_rfl (kstar_mono h)
      _ = m∗ := kstar_mul_kstar m
  · exact le_mul_of_one_le_right' one_le_kstar

end

/-! ## What a deterministic automaton is known by -/

namespace Nfa

variable {a b : Nfa}

/-- If two automata accept the same words, confuse the same words and are nowhere after the same
words, the sets that they are in after one word correspond. -/
theorem alike_of_words (ha : a.Closed) (haccepts : ∀ w, a.accepts w = b.accepts w)
    (hempty : ∀ w, (a.active w).isEmpty = (b.active w).isEmpty)
    (hsame : ∀ w w', a.active w = a.active w' ↔ b.active w = b.active w') :
    a.subsets.Alike b.subsets fun s t =>
      ∃ w, (a.active w).isEmpty = false ∧ a.active w = s ∧ b.active w = t where
  start := ⟨[], isEmpty_startSet ha, rfl, rfl⟩
  next := by
    rintro _ _ ⟨w, -, rfl, rfl⟩ c
    rw [next_subsets, next_subsets, ← active_concat, ← active_concat, ← hempty]
    cases h : (a.active (w ++ [c])).isEmpty with
    | true => exact .none
    | false => exact .some ⟨w ++ [c], h, rfl, rfl⟩
  accepts := by
    rintro _ _ ⟨w, -, rfl, rfl⟩
    exact haccepts w
  unique := by
    constructor
    · rintro _ _ _ ⟨w, -, rfl, rfl⟩ ⟨w', -, rfl, h⟩
      exact (hsame w w').mpr h.symm
    · rintro _ _ _ ⟨w, -, rfl, rfl⟩ ⟨w', -, h, rfl⟩
      exact (hsame w w').mp h.symm

end Nfa

namespace Dfa

open Nfa (Built)

variable {a b c : Nfa}

/-- **A deterministic automaton is known by its language and by the words that are confused.** -/
theorem ofNfa_eq_iff (ha : a.Built) (hb : b.Built) :
    ofNfa a = ofNfa b ↔
      a.language = b.language ∧ ∀ w w', a.Confuses 1 w w' ↔ b.Confuses 1 w w' := by
  simp only [← ha.shaped.active_eq_iff, ← hb.shaped.active_eq_iff]
  constructor
  · intro h
    constructor
    · ext w
      rw [Nfa.mem_language, Nfa.mem_language, ← simulate_ofNfa ha.shaped, h,
        simulate_ofNfa hb.shaped]
    · intro w w'
      rw [← run_ofNfa_inj ha.shaped, h, run_ofNfa_inj hb.shaped]
  · rintro ⟨hlanguage, hsame⟩
    have haccepts : ∀ w, a.accepts w = b.accepts w := by
      intro w
      rw [Bool.eq_iff_iff, ← Nfa.mem_language, hlanguage, Nfa.mem_language]
    have hempty : ∀ w, (a.active w).isEmpty = (b.active w).isEmpty := by
      intro w
      rw [← Bool.not_inj_iff, Bool.eq_iff_iff]
      simp only [Bool.not_eq_true', Nfa.isEmpty_active_iff ha, Nfa.isEmpty_active_iff hb, haccepts]
    have halike := Nfa.alike_of_words ha.shaped.closed haccepts hempty hsame
    exact halike.toDfa_eq (Nfa.covered_subsets ha.shaped) (Nfa.covered_subsets hb.shaped)

/-! ## Alternation -/

section
variable (ha : a.Built) (hb : b.Built) (hc : c.Built)
include ha hb

theorem ofNfa_alternate_comm : ofNfa (a.alternate b) = ofNfa (b.alternate a) := by
  rw [ofNfa_eq_iff (ha.alternate hb) (hb.alternate ha)]
  constructor
  · rw [ha.shaped.language_alternate hb.shaped, hb.shaped.language_alternate ha.shaped, add_comm]
  · intro w w'
    rw [ha.shaped.confuses_alternate hb.shaped, hb.shaped.confuses_alternate ha.shaped]
    exact and_congr Iff.rfl and_comm

include hc in
theorem ofNfa_alternate_assoc :
    ofNfa ((a.alternate b).alternate c) = ofNfa (a.alternate (b.alternate c)) := by
  have hab := ha.alternate hb
  have hbc := hb.alternate hc
  rw [ofNfa_eq_iff (hab.alternate hc) (ha.alternate hbc)]
  constructor
  · rw [hab.shaped.language_alternate hc.shaped, ha.shaped.language_alternate hb.shaped,
      ha.shaped.language_alternate hbc.shaped, hb.shaped.language_alternate hc.shaped, add_assoc]
  · intro w w'
    rw [hab.shaped.confuses_alternate hc.shaped, ha.shaped.confuses_alternate hb.shaped,
      ha.shaped.confuses_alternate hbc.shaped, hb.shaped.confuses_alternate hc.shaped]
    tauto

theorem ofNfa_optional_alternate :
    ofNfa (a.alternate b).optional = ofNfa (a.optional.alternate b) := by
  have hab := ha.alternate hb
  rw [ofNfa_eq_iff hab.optional (ha.optional.alternate hb)]
  constructor
  · rw [hab.shaped.language_optional, ha.shaped.language_alternate hb.shaped,
      ha.optional.shaped.language_alternate hb.shaped, ha.shaped.language_optional, add_assoc]
  · intro w w'
    rw [hab.shaped.confuses_optional, ha.shaped.confuses_alternate hb.shaped,
      ha.optional.shaped.confuses_alternate hb.shaped, ha.shaped.confuses_optional]
    tauto

omit hb

theorem ofNfa_alternate_self : ofNfa (a.alternate a) = ofNfa a := by
  rw [ofNfa_eq_iff (ha.alternate ha) ha]
  constructor
  · rw [ha.shaped.language_alternate ha.shaped, add_idem]
  · intro w w'
    rw [ha.shaped.confuses_alternate ha.shaped]
    constructor
    · rintro ⟨-, h, -⟩
      exact h
    · intro h
      exact ⟨ha.eq_nil_iff_of_confuses h, h, h⟩

end

/-! ## Iteration -/

section
variable (ha : a.Built) (hb : b.Built)
include ha

theorem ofNfa_star_star : ofNfa a.star.star = ofNfa a.star := by
  rw [ofNfa_eq_iff ha.star.star ha.star]
  constructor
  · rw [ha.star.shaped.language_star, ha.shaped.language_star, kstar_idem]
  · intro w w'
    rw [ha.star.shaped.confuses_star, ha.shaped.language_star, kstar_idem, ha.shaped.confuses_star,
      ha.shaped.confuses_star, mul_assoc, kstar_mul_kstar]
    tauto

theorem ofNfa_star_optional : ofNfa a.optional.star = ofNfa a.star := by
  rw [ofNfa_eq_iff ha.optional.star ha.star]
  constructor
  · rw [ha.optional.shaped.language_star, ha.shaped.language_optional, ha.shaped.language_star,
      kstar_one_add]
  · intro w w'
    rw [ha.optional.shaped.confuses_star, ha.shaped.language_optional, kstar_one_add,
      ha.shaped.confuses_optional, ha.shaped.confuses_star]
    tauto

theorem ofNfa_optional_star : ofNfa a.star.optional = ofNfa a.star := by
  rw [ofNfa_eq_iff ha.star.optional ha.star]
  constructor
  · rw [ha.star.shaped.language_optional, ha.shaped.language_star,
      add_eq_right_iff_le.mpr one_le_kstar]
  · intro w w'
    rw [ha.star.shaped.confuses_optional]
    constructor
    · rintro ⟨-, h⟩
      exact h
    · intro h
      exact ⟨ha.star.eq_nil_iff_of_confuses h, h⟩

theorem ofNfa_optional_optional : ofNfa a.optional.optional = ofNfa a.optional := by
  rw [ofNfa_eq_iff ha.optional.optional ha.optional]
  constructor
  · rw [ha.optional.shaped.language_optional, ha.shaped.language_optional, ← add_assoc, add_idem]
  · intro w w'
    rw [ha.optional.shaped.confuses_optional, ha.shaped.confuses_optional]
    tauto

include hb

theorem confuses_star_alternate {w w' : List Char} :
    (a.alternate b).star.Confuses 1 w w' ↔
      (w ∈ (a.language + b.language)∗ ↔ w' ∈ (a.language + b.language)∗) ∧
        a.Confuses (a.language + b.language)∗ w w' ∧
        b.Confuses (a.language + b.language)∗ w w' := by
  rw [(ha.alternate hb).shaped.confuses_star, ha.shaped.language_alternate hb.shaped, one_mul,
    ha.shaped.confuses_alternate hb.shaped]
  tauto

theorem ofNfa_star_alternate_star :
    ofNfa (a.star.alternate b.star).star = ofNfa (a.alternate b).star := by
  have hab := ha.star.alternate hb.star
  rw [ofNfa_eq_iff hab.star (ha.alternate hb).star]
  constructor
  · rw [hab.shaped.language_star, ha.star.shaped.language_alternate hb.star.shaped,
      ha.shaped.language_star, hb.shaped.language_star, kstar_kstar_add_kstar,
      (ha.alternate hb).shaped.language_star, ha.shaped.language_alternate hb.shaped]
  · intro w w'
    rw [confuses_star_alternate ha hb, confuses_star_alternate ha.star hb.star,
      ha.shaped.language_star, hb.shaped.language_star, kstar_kstar_add_kstar,
      ha.shaped.confuses_star, hb.shaped.confuses_star, kstar_mul_kstar_of_le le_self_add,
      kstar_mul_kstar_of_le le_add_self]
    tauto

theorem ofNfa_star_concat_star :
    ofNfa (a.star.concat b.star).star = ofNfa (a.alternate b).star := by
  have hab := ha.star.concat hb.star
  have hlanguage : (a.star.concat b.star).language = a.language∗ * b.language∗ := by
    rw [ha.star.shaped.language_concat hb.star.shaped, ha.shaped.language_star,
      hb.shaped.language_star]
  rw [ofNfa_eq_iff hab.star (ha.alternate hb).star]
  constructor
  · rw [hab.shaped.language_star, hlanguage, kstar_kstar_mul_kstar,
      (ha.alternate hb).shaped.language_star, ha.shaped.language_alternate hb.shaped]
  · intro w w'
    rw [confuses_star_alternate ha hb, hab.shaped.confuses_star, hlanguage, kstar_kstar_mul_kstar,
      one_mul, ha.shaped.confuses_star_concat hb.star.shaped, ha.shaped.confuses_star,
      hb.shaped.confuses_star, kstar_mul_kstar_of_le le_self_add,
      kstar_mul_kstar_of_le le_add_self]
    tauto

end

/-! ## Patterns -/

/-- **Alternation is commutative, associative and idempotent**, and an optional alternative may be
made optional on one side, in all of the deterministic automaton. -/
theorem alternation_laws (x y z : Tree) :
    ofTree (.alternative x y) = ofTree (.alternative y x) ∧
    ofTree (.alternative (.alternative x y) z) = ofTree (.alternative x (.alternative y z)) ∧
    ofTree (.alternative x x) = ofTree x ∧
    ofTree (.optional (.alternative x y)) = ofTree (.alternative (.optional x) y) := by
  have hx := Nfa.built_ofTree x
  have hy := Nfa.built_ofTree y
  have hz := Nfa.built_ofTree z
  refine ⟨?_, ?_, ?_, ?_⟩
  · exact ofNfa_alternate_comm hx hy
  · exact ofNfa_alternate_assoc hx hy hz
  · exact ofNfa_alternate_self hx
  · exact ofNfa_optional_alternate hx hy

/-- **A repetition takes in what is repeated or optional inside or around it**, in all of the
deterministic automaton. -/
theorem iteration_laws (x y : Tree) :
    ofTree (.star (.star x)) = ofTree (.star x) ∧
    ofTree (.star (.optional x)) = ofTree (.star x) ∧
    ofTree (.optional (.star x)) = ofTree (.star x) ∧
    ofTree (.optional (.optional x)) = ofTree (.optional x) ∧
    ofTree (.star (.alternative (.star x) (.star y))) = ofTree (.star (.alternative x y)) ∧
    ofTree (.star (.sequence (.star x) (.star y))) = ofTree (.star (.alternative x y)) := by
  have hx := Nfa.built_ofTree x
  have hy := Nfa.built_ofTree y
  refine ⟨?_, ?_, ?_, ?_, ?_, ?_⟩
  · exact ofNfa_star_star hx
  · exact ofNfa_star_optional hx
  · exact ofNfa_optional_star hx
  · exact ofNfa_optional_optional hx
  · exact ofNfa_star_alternate_star hx hy
  · exact ofNfa_star_concat_star hx hy

end Dfa
end PatternAutomata
