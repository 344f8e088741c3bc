import PatternAutomata.Proofs.CompileLanguage
import PatternAutomata.Proofs.Trim
/-!
# Early rejection is exact

A run of a deterministic automaton stops where a transition is missing (`StopsAt`). The automaton of
a pattern has no superfluous state (`trim_ofNfa`) and no superfluous symbol (`alphabet_ofNfa`), so
it stops as soon as what it has read begins no word of the language, and not before
(`compile_trim`).
-/
namespace PatternAutomata

/-- Some word of `t` begins with `w`. -/
def Tree.Begins (t : Tree) (w : List Char) : Prop := ∃ u, t.Matches u ∧ w <+: u

theorem Tree.begins_iff {t : Tree} {w : List Char} : t.Begins w ↔ ∃ v, t.Matches (w ++ v) := by
  constructor
  · rintro ⟨u, hu, v, rfl⟩
    exact ⟨v, hu⟩
  · rintro ⟨v, h⟩
    exact ⟨_, h, List.prefix_append w v⟩

namespace Dfa

variable {d : Dfa} {q r i : Nat} {c : Char} {u v w : List Char}

/-! ## Where a run stops -/

/-- Reading `w` stops at its character `i`, counted from 0: the characters before it lead to a state
and from there it leads nowhere. -/
def StopsAt (d : Dfa) (w : List Char) (i : Nat) : Prop :=
  ∃ q c, d.run (w.take i) = some q ∧ w[i]? = some c ∧ d.transition q c = none

theorem runFrom_append : d.runFrom q (u ++ v) = (d.runFrom q u).bind (d.runFrom · v) := by
  simp only [runFrom, List.foldlM_append]
  rfl

theorem run_append : d.run (u ++ v) = (d.run u).bind (d.runFrom · v) := runFrom_append

theorem run_concat : d.run (w ++ [c]) = (d.run w).bind (d.transition · c) := by
  simp [run, runFrom]

theorem simulate_eq_accepted :
    d.simulate w = .accepted ↔ ∃ q, d.run w = some q ∧ d.isAccepting q = true := by
  unfold simulate
  cases d.run w <;> simp

/-- A run stops at the first character after which it is nowhere. -/
theorem stopsAt_iff :
    d.StopsAt w i ↔ d.run (w.take i) ≠ none ∧ d.run (w.take (i + 1)) = none := by
  rw [List.take_add_one]
  cases hc : w[i]? with
  | none => simp [StopsAt, hc]
  | some c =>
    rw [Option.toList_some, run_concat]
    cases hq : d.run (w.take i) with
    | none => simp [StopsAt, hq]
    | some q => simp [StopsAt, hq, hc]

/-- What leads nowhere leads nowhere however it goes on. -/
theorem run_append_eq_none (h : d.run u = none) : d.run (u ++ v) = none := by
  rw [run_append, h, Option.bind_none]

/-- A run that is nowhere at the end has stopped at some character. -/
theorem run_eq_none_iff : d.run w = none ↔ ∃ i, d.StopsAt w i := by
  constructor
  · intro h
    induction w using List.reverseRecOn with
    | nil => cases h
    | append_singleton w c ih =>
      cases hw : d.run w with
      | none =>
        obtain ⟨i, q, c', hq, hc', hstop⟩ := ih hw
        have hi : i < w.length := (List.getElem?_eq_some_iff.mp hc').1
        refine ⟨i, q, c', ?_, ?_, hstop⟩
        · rwa [List.take_append_of_le_length hi.le]
        · rwa [List.getElem?_append_left hi]
      | some q =>
        rw [run_concat, hw, Option.bind_some] at h
        exact ⟨w.length, q, c, by simpa using hw, by simp, h⟩
  · rintro ⟨i, h⟩
    have hnone := run_append_eq_none (v := w.drop (i + 1)) (stopsAt_iff.mp h).2
    rwa [List.take_append_drop] at hnone

/-- An input is rejected because the run stops, or because it ends in the wrong state. -/
theorem simulate_eq_rejected_iff :
    d.simulate w = .rejected ↔
      (∃ i, d.StopsAt w i) ∨ ∃ q, d.run w = some q ∧ d.isAccepting q = false := by
  rw [← run_eq_none_iff]
  unfold simulate
  cases d.run w <;> simp

theorem getElem?_traceFrom :
    (d.traceFrom q w)[i]? = some none ↔
      ∃ r c, d.runFrom q (w.take i) = some r ∧ w[i]? = some c ∧ d.transition r c = none := by
  induction w generalizing q i with
  | nil => simp [traceFrom]
  | cons c w ih =>
    unfold traceFrom
    cases i with
    | zero => cases hr : d.transition q c <;> simp [hr]
    | succ i =>
      rw [List.take_succ_cons, runFrom_cons]
      cases hr : d.transition q c with
      | none => simp
      | some r => simpa using ih

/-- The trace ends with `none` where the run stops. -/
theorem getElem?_trace : (d.trace w)[i + 1]? = some none ↔ d.StopsAt w i := getElem?_traceFrom

/-! ## No superfluous state, no superfluous symbol -/

/-- Each state is entered, and from each an input can still be accepted. -/
structure Trim (d : Dfa) : Prop where
  entered : ∀ q < d.stateCount, ∃ w, d.run w = some q
  completed : ∀ q < d.stateCount, ∃ w r, d.runFrom q w = some r ∧ d.isAccepting r = true

theorem mem_alphabet : c ∈ d.alphabet ↔ ∃ q r, d.transition q c = some r := by
  have hkeys : ∀ moves : List (Char × Nat),
      (∃ r, moves.lookup c = some r) ↔ c ∈ moves.map Prod.fst := by
    intro moves
    rw [← Option.isSome_iff_exists, List.lookup_isSome_iff, List.mem_map]
    simp only [beq_iff_eq, eq_comm (a := c)]
  simp only [alphabet, transition, SymbolSet.mem_ofList, hkeys, List.map_flatMap, List.mem_flatMap]
  constructor
  · rintro ⟨s, hs, hc⟩
    obtain ⟨q, hq, rfl⟩ := List.mem_iff_getElem.mp hs
    exact ⟨q, by simpa [movesFrom, List.getElem?_eq_getElem hq] using hc⟩
  · rintro ⟨q, hc⟩
    cases hs : d.states[q]? with
    | none => simp [movesFrom, hs] at hc
    | some s =>
      refine ⟨s, List.mem_of_getElem? hs, ?_⟩
      simpa [movesFrom, hs] using hc

section
variable {a : Nfa} (ha : a.Built)
include ha

theorem exists_run_ofNfa_iff :
    (∃ q, (ofNfa a).run w = some q) ↔ ∃ v, a.accepts (w ++ v) = true := by
  rw [← Option.ne_none_iff_exists', Ne, run_ofNfa_eq_none ha.shaped, ← Nfa.isEmpty_active_iff ha,
    Bool.not_eq_true]

/-- **The deterministic automaton has no superfluous state.** -/
theorem trim_ofNfa : (ofNfa a).Trim := by
  have hentered : ∀ q < (ofNfa a).stateCount, ∃ w, (ofNfa a).run w = some q := by
    intro q hq
    obtain ⟨s, ⟨hs, w, rfl⟩, rfl⟩ := (Nfa.bijOn_stateNumber ha.shaped).surjOn hq
    refine ⟨w, ?_⟩
    rw [run_ofNfa ha.shaped, hs]
    rfl
  refine ⟨hentered, fun q hq => ?_⟩
  obtain ⟨w, hw⟩ := hentered q hq
  obtain ⟨v, hv⟩ := (exists_run_ofNfa_iff ha).mp ⟨q, hw⟩
  obtain ⟨r, hr, haccepting⟩ := simulate_eq_accepted.mp ((simulate_ofNfa ha.shaped).mpr hv)
  rw [run_append, hw] at hr
  exact ⟨v, r, hr, haccepting⟩

/-- **Its symbols are those of the nondeterministic one**: every edge is on the way of some run. -/
theorem alphabet_ofNfa : (ofNfa a).alphabet = a.alphabet := by
  have hs := ha.shaped
  ext c
  rw [mem_alphabet]
  constructor
  · rintro ⟨q, r, h⟩
    obtain ⟨s, t, -, hnext, -⟩ :=
      (Machine.transition_toDfa_iff (Nfa.covered_subsets hs)).mp h
    exact Nfa.covered_subsets hs s c t hnext
  · intro hc
    obtain ⟨q, r, hstep⟩ := (hs.mem_alphabet c).mp hc
    obtain ⟨⟨u, hu⟩, -⟩ := ha.trim q hstep.lt_size
    have hr : r ∈ a.active (u ++ [c]) := (Nfa.mem_active hs.closed).mpr (hu.step hstep)
    cases hrun : (ofNfa a).run (u ++ [c]) with
    | none =>
      rw [run_ofNfa_eq_none hs, IndexSet.isEmpty_iff] at hrun
      exact absurd hr (hrun r)
    | some p =>
      rw [run_concat] at hrun
      obtain ⟨p', -, hp⟩ := Option.bind_eq_some_iff.mp hrun
      exact ⟨p', p, hp⟩

end
end Dfa

/-! ## Patterns -/

section
variable {t : Tree} {w : List Char} {i : Nat}

theorem Nfa.alphabet_ofTree (t : Tree) : (ofTree t).alphabet = .ofList t.literals := by
  ext c
  rw [SymbolSet.mem_ofList]
  induction t with
  | literal d => simp [ofTree, symbol, Tree.literals]
  | sequence x y hx hy => simp [ofTree, concat, Tree.literals, hx, hy]
  | alternative x y hx hy => simp [ofTree, alternate, Tree.literals, hx, hy]
  | star x hx => exact hx
  | optional x hx => exact hx

theorem Dfa.run_ofTree_eq_none : (Dfa.ofTree t).run w = none ↔ ¬ t.Begins w := by
  rw [Tree.begins_iff, ← Option.not_isSome_iff_eq_none, Option.isSome_iff_exists, Dfa.ofTree,
    Dfa.exists_run_ofNfa_iff (Nfa.built_ofTree t)]
  simp only [Nfa.accepts_ofTree]

theorem Dfa.stopsAt_ofTree :
    (Dfa.ofTree t).StopsAt w i ↔ t.Begins (w.take i) ∧ ¬ t.Begins (w.take (i + 1)) := by
  rw [Dfa.stopsAt_iff, Ne, Dfa.run_ofTree_eq_none, Dfa.run_ofTree_eq_none, not_not]

end

/-- **A compiled pattern rejects as early as it can**: its automaton has no superfluous state, its
symbols are the literals of the pattern, and an input is given up at the character with which it
ceases to be the beginning of a word of the language. -/
theorem compile_trim {p : List Char} {t : Tree} (h : parse p = .ok t) :
    ∃ d, compile p = .ok d ∧ d.Trim ∧
      d.alphabet = (Nfa.ofTree t).alphabet ∧ d.alphabet = .ofList t.literals ∧
      (∀ w i, d.StopsAt w i ↔ t.Begins (w.take i) ∧ ¬ t.Begins (w.take (i + 1))) ∧
      (∀ w i, (d.trace w)[i + 1]? = some none ↔ d.StopsAt w i) ∧
      ∀ w, d.simulate w = .rejected ↔
        (∃ i, d.StopsAt w i) ∨ ∃ q, d.run w = some q ∧ d.isAccepting q = false := by
  have hbuilt := Nfa.built_ofTree t
  have halphabet : (Dfa.ofTree t).alphabet = (Nfa.ofTree t).alphabet := Dfa.alphabet_ofNfa hbuilt
  refine ⟨_, compile_of_parse h, Dfa.trim_ofNfa hbuilt, halphabet, ?_, ?_, ?_, ?_⟩
  · rw [halphabet, Nfa.alphabet_ofTree]
  · exact fun w i => Dfa.stopsAt_ofTree
  · exact fun w i => Dfa.getElem?_trace
  · exact fun w => Dfa.simulate_eq_rejected_iff

/-- After the last character of a longest word nothing may follow. -/
theorem compile_trim_optional :
    ∃ d, compile ['a', 'b', '?'] = .ok d ∧ d.Trim ∧ d.alphabet = .ofList ['a', 'b'] ∧
      d.StopsAt ['a', 'b', 'a'] 2 := by
  have hparse : parse ['a', 'b', '?'] =
      .ok (.sequence (.literal 'a') (.optional (.literal 'b'))) := rfl
  obtain ⟨d, hd, htrim, -, halphabet, hstops, -⟩ := compile_trim hparse
  refine ⟨d, hd, htrim, halphabet, (hstops _ _).mpr ⟨?_, ?_⟩⟩
  · exact ⟨['a', 'b'], .sequence (.literal 'a') (.present (.literal 'b')), List.prefix_rfl⟩
  · rintro ⟨u, hu, v, rfl⟩
    simp [Tree.matches_sequence_iff, Tree.matches_optional_iff, Tree.matches_literal_iff] at hu

end PatternAutomata
