import PatternAutomata.Proofs.CanonicalNumbering
import PatternAutomata.Proofs.EarlyRejection
import PatternAutomata.Proofs.Entries
/-!
# The start is left for good, and each state is entered for one symbol

What holds of the sets of states that runs are in holds of the states of the deterministic
automaton. The set before the first symbol does not come back, so the start is not entered again,
and a set tells the symbol after which it is reached, so all transitions to one state are for one
symbol (`homogeneous_ofNfa`).
-/
namespace PatternAutomata

namespace Dfa

/-- No transition leads to the start, and those that lead to one state are for one symbol. -/
structure Homogeneous (d : Dfa) : Prop where
  start_eq : d.start = 0
  target_ne_zero : ∀ q c r, d.transition q c = some r → r ≠ 0
  symbol_eq : ∀ q q' c c' r, d.transition q c = some r → d.transition q' c' = some r → c = c'

/-- **The start is current before the first character only.** -/
theorem Homogeneous.run_eq_zero {d : Dfa} (h : d.Homogeneous) {w : List Char} :
    d.run w = some 0 ↔ w = [] := by
  constructor
  · intro hw
    cases w using List.reverseRecOn with
    | nil => rfl
    | append_singleton u c =>
      rw [run_concat] at hw
      obtain ⟨q, -, hq⟩ := Option.bind_eq_some_iff.mp hw
      exact absurd rfl (h.target_ne_zero q c 0 hq)
  · rintro rfl
    exact congrArg some h.start_eq

variable {a : Nfa} {c : Char} {q r : Nat} (ha : a.Built)
include ha

/-- A transition leads to the number of a set that is reached after its symbol. -/
theorem exists_advance_of_transition (h : (ofNfa a).transition q c = some r) :
    ∃ s ∈ a.subsetStates, (a.advance s c).isEmpty = false ∧ r = a.stateNumber (a.advance s c) := by
  obtain ⟨s, t, hs, hnext, -, rfl⟩ :=
    (Machine.transition_toDfa_iff (Nfa.covered_subsets ha.shaped)).mp h
  rw [Nfa.next_subsets] at hnext
  split at hnext
  · cases hnext
  · next hne =>
    obtain rfl := Option.some.inj hnext
    exact ⟨s, (Nfa.mem_discover_subsets ha.shaped).mp hs, Bool.eq_false_iff.mpr hne, rfl⟩

theorem homogeneous_ofNfa : (ofNfa a).Homogeneous where
  start_eq := rfl
  target_ne_zero := by
    rintro q c _ h rfl
    obtain ⟨_, ⟨-, w, rfl⟩, hne, hzero⟩ := exists_advance_of_transition ha h
    have hrun : (ofNfa a).run (w ++ [c]) = (ofNfa a).run [] := by
      rw [run_ofNfa ha.shaped, Nfa.active_concat, hne, ← hzero]
      rfl
    have hnil := ha.eq_nil_of_active_eq ((run_ofNfa_inj ha.shaped).mp hrun)
    exact absurd hnil (by simp)
  symbol_eq := by
    intro q q' c c' r h h'
    obtain ⟨s, hs, hne, hr⟩ := exists_advance_of_transition ha h
    obtain ⟨s', hs', hne', hr'⟩ := exists_advance_of_transition ha h'
    have hset : a.advance s c = a.advance s' c' :=
      (Nfa.bijOn_stateNumber ha.shaped).injOn (Nfa.advance_mem_subsetStates hs hne)
        (Nfa.advance_mem_subsetStates hs' hne') (hr.symm.trans hr')
    exact ha.symbol_eq_of_advance_eq hset hne

theorem isAccepting_ofNfa_zero : (ofNfa a).isAccepting 0 = true ↔ a.accepts [] = true := by
  have hrun : (ofNfa a).run [] = some 0 := rfl
  rw [← simulate_ofNfa ha.shaped, simulate_eq_accepted, hrun]
  simp

end Dfa

/-- **Deterministic automata do not return to the start, and enter each state for one symbol**,
whatever they are made from. So the start says whether the empty word is accepted and nothing
else. -/
theorem compile_homogeneous :
    (∀ a : Nfa, a.Built →
      (Dfa.ofNfa a).Homogeneous ∧ (∀ w, (Dfa.ofNfa a).run w = some 0 ↔ w = []) ∧
        ((Dfa.ofNfa a).isAccepting 0 = true ↔ a.accepts [] = true)) ∧
    ∀ p t, parse p = .ok t → ∃ d, compile p = .ok d ∧
      d.Homogeneous ∧ (∀ w, d.run w = some 0 ↔ w = []) ∧
        (d.isAccepting 0 = true ↔ t.Matches []) := by
  have hbuilt : ∀ a : Nfa, a.Built →
      (Dfa.ofNfa a).Homogeneous ∧ (∀ w, (Dfa.ofNfa a).run w = some 0 ↔ w = []) ∧
        ((Dfa.ofNfa a).isAccepting 0 = true ↔ a.accepts [] = true) := by
    intro a ha
    have h := Dfa.homogeneous_ofNfa ha
    exact ⟨h, fun _ => h.run_eq_zero, Dfa.isAccepting_ofNfa_zero ha⟩
  refine ⟨hbuilt, ?_⟩
  intro p t hp
  obtain ⟨h, hrun, hzero⟩ := hbuilt _ (Nfa.built_ofTree t)
  rw [Nfa.accepts_ofTree] at hzero
  exact ⟨_, compile_of_parse hp, h, hrun, hzero⟩

/-- The repetition begins in the state that the symbol before it leads to. -/
theorem compile_homogeneous_repeated :
    ((Nfa.symbol 'a').concat (Nfa.symbol 'b').star).Built ∧
      (Dfa.ofNfa ((Nfa.symbol 'a').concat (Nfa.symbol 'b').star)).Homogeneous ∧
      ∃ d, compile ['a', 'b', '*'] = .ok d ∧ d.Homogeneous ∧ d.isAccepting 0 = false := by
  have hbuilt : ((Nfa.symbol 'a').concat (Nfa.symbol 'b').star).Built :=
    .concat (.symbol 'a') (.star (.symbol 'b'))
  have hparse : parse ['a', 'b', '*'] =
      .ok (.sequence (.literal 'a') (.star (.literal 'b'))) := rfl
  obtain ⟨hnfa, hpattern⟩ := compile_homogeneous
  obtain ⟨d, hd, hhomogeneous, -, hzero⟩ := hpattern _ _ hparse
  refine ⟨hbuilt, (hnfa _ hbuilt).1, d, hd, hhomogeneous, ?_⟩
  rw [Bool.eq_false_iff, Ne, hzero]
  simp [Tree.matches_sequence_iff, Tree.matches_literal_iff]

end PatternAutomata
