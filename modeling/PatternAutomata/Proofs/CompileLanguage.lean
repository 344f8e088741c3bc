import PatternAutomata.Compile
import PatternAutomata.Proofs.SubsetConstruction
import PatternAutomata.Proofs.ThompsonLanguage
/-!
# A compiled pattern recognizes its language

The automaton of a tree accepts the words of the tree and rejects all others
(`simulate_ofTree`, `rejected_ofTree`), and a pattern compiles exactly if it parses
(`compile_language`).
-/
namespace PatternAutomata

variable {t : Tree} {w : List Char}

theorem Dfa.simulate_ofTree : (Dfa.ofTree t).simulate w = .accepted ↔ t.Matches w := by
  rw [Dfa.ofTree, Dfa.simulate_ofNfa (Nfa.built_ofTree t).shaped, Nfa.accepts_ofTree]

theorem Dfa.rejected_ofTree : (Dfa.ofTree t).simulate w = .rejected ↔ ¬ t.Matches w := by
  rw [Dfa.simulate_eq_rejected, Ne, Dfa.simulate_ofTree]

theorem compile_of_parse {p : List Char} (h : parse p = .ok t) : compile p = .ok (.ofTree t) := by
  rw [compile, h]
  rfl

/-- A pattern fails to compile for the reason that it fails to parse. -/
theorem compile_eq_error {p : List Char} {e : ParseError} :
    compile p = .error e ↔ parse p = .error e := by
  cases hp : parse p with
  | error e' =>
    have hcompile : compile p = .error e' := by
      rw [compile, hp]
      rfl
    rw [hcompile]
    constructor
    · intro h
      exact congrArg _ (Except.error.inj h)
    · intro h
      exact congrArg _ (Except.error.inj h)
  | ok t =>
    rw [compile_of_parse hp]
    constructor
    · intro h
      cases h
    · intro h
      cases h

/-- **A compiled pattern accepts the words of its tree and rejects all others**, whatever their
characters, and the patterns that do not compile are those that do not parse. -/
theorem compile_language (p : List Char) :
    (∀ t, parse p = .ok t → ∃ d, compile p = .ok d ∧ ∀ w,
      (d.simulate w = .accepted ↔ t.Matches w) ∧ (d.simulate w = .rejected ↔ ¬ t.Matches w)) ∧
    ∀ e, compile p = .error e ↔ parse p = .error e := by
  refine ⟨?_, fun e => compile_eq_error⟩
  intro t ht
  refine ⟨_, compile_of_parse ht, fun w => ?_⟩
  exact ⟨Dfa.simulate_ofTree, Dfa.rejected_ofTree⟩

/-- The group repeats before the last character. -/
theorem compile_language_group :
    ∃ d, compile ['(', 'a', '|', 'b', ')', '*', 'c'] = .ok d ∧
      d.simulate ['b', 'a', 'c'] = .accepted := by
  have hparse : parse ['(', 'a', '|', 'b', ')', '*', 'c'] =
      .ok (.sequence (.star (.alternative (.literal 'a') (.literal 'b'))) (.literal 'c')) := rfl
  obtain ⟨d, hd, hwords⟩ := (compile_language ['(', 'a', '|', 'b', ')', '*', 'c']).1 _ hparse
  refine ⟨d, hd, (hwords ['b', 'a', 'c']).1.mpr ?_⟩
  exact .sequence (.again (.second (.literal 'b')) (.again (.first (.literal 'a')) .finished))
    (.literal 'c')

end PatternAutomata
