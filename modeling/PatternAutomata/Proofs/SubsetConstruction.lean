import Mathlib.Data.Set.Function
import Mathlib.Order.Interval.Set.Defs
import PatternAutomata.Dfa.Subset
import PatternAutomata.Proofs.Paths
import PatternAutomata.Proofs.Rounds
import PatternAutomata.Proofs.ThompsonEdges
/-!
# The subset construction is exact

The machine of sets runs as the sets themselves do, except that it stops at the empty set
(`run_subsets`). With what numbering keeps of a machine, the states of the deterministic automaton
are the non-empty sets that words lead to, one each (`ofNfa_exact`), and both automata accept the
same words (`simulate_ofNfa`).
-/
namespace PatternAutomata

namespace Nfa

variable {a : Nfa} {s : IndexSet} {w : List Char} {c : Char}

/-- The non-empty sets that a run can be in. -/
def subsetStates (a : Nfa) : Set IndexSet := {s | s.isEmpty = false ∧ ∃ w, a.active w = s}

theorem exists_mem_of_isEmpty_eq_false (h : s.isEmpty = false) : ∃ i, i ∈ s := by
  by_cases hs : ∃ i, i ∈ s
  · exact hs
  · have hempty : s.isEmpty = true := IndexSet.isEmpty_iff.mpr fun i hi => hs ⟨i, hi⟩
    rw [h] at hempty
    cases hempty

theorem isEmpty_advance (ha : a.Closed) (h : s.isEmpty = true) :
    (a.advance s c).isEmpty = true := by
  rw [IndexSet.isEmpty_iff] at h ⊢
  intro i hi
  obtain ⟨r, hr, -⟩ := (mem_closure ha).mp hi
  obtain ⟨q, hq, -⟩ := mem_moveOn.mp hr
  exact h q hq

theorem isEmpty_startSet (ha : a.Closed) : a.startSet.isEmpty = false := by
  have hinit : a.initial ∈ a.startSet := (mem_closure ha).mpr ⟨a.initial, by simp, .refl⟩
  cases h : a.startSet.isEmpty with
  | false => rfl
  | true => exact absurd hinit (IndexSet.isEmpty_iff.mp h a.initial)

/-! ## The machine of sets -/

theorem next_subsets :
    a.subsets.next s c = if (a.advance s c).isEmpty then none else some (a.advance s c) := by
  cases h : (a.advance s c).isEmpty <;> simp [subsets, Option.guard, h]

/-- A symbol that labels no edge leads to the empty set. -/
theorem covered_subsets (ha : a.Shaped) : a.subsets.Covered := by
  intro s c t h
  rw [next_subsets] at h
  split at h
  · cases h
  · next hne =>
    obtain ⟨i, hi⟩ := exists_mem_of_isEmpty_eq_false (Bool.eq_false_iff.mpr hne)
    obtain ⟨r, hr, -⟩ := (mem_closure ha.closed).mp hi
    obtain ⟨q, -, hqr⟩ := mem_moveOn.mp hr
    exact (ha.mem_alphabet c).mpr ⟨q, r, hqr⟩

/-- **The machine is where the run is**, as long as the run is somewhere. -/
theorem run_subsets (ha : a.Closed) :
    a.subsets.run w = if (a.active w).isEmpty then none else some (a.active w) := by
  induction w using List.reverseRecOn with
  | nil =>
    rw [active_nil, isEmpty_startSet ha]
    rfl
  | append_singleton w c ih =>
    rw [Machine.run_concat, ih, active_concat]
    cases h : (a.active w).isEmpty with
    | true => simp [isEmpty_advance ha h]
    | false => simp [next_subsets]

theorem run_subsets_eq_some (ha : a.Closed) :
    a.subsets.run w = some s ↔ s.isEmpty = false ∧ a.active w = s := by
  rw [run_subsets ha]
  constructor
  · intro h
    split at h
    · cases h
    · next hne =>
      obtain rfl := Option.some.inj h
      exact ⟨Bool.eq_false_iff.mpr hne, rfl⟩
  · rintro ⟨h, rfl⟩
    simp [h]

/-- **Exactly the non-empty sets of runs are numbered.** -/
theorem mem_discover_subsets (ha : a.Shaped) : s ∈ a.subsets.discover ↔ s ∈ a.subsetStates := by
  rw [Machine.mem_discover (covered_subsets ha)]
  constructor
  · rintro ⟨w, hw⟩
    obtain ⟨hs, hw⟩ := (run_subsets_eq_some ha.closed).mp hw
    exact ⟨hs, w, hw⟩
  · rintro ⟨hs, w, hw⟩
    exact ⟨w, (run_subsets_eq_some ha.closed).mpr ⟨hs, hw⟩⟩

theorem active_mem_subsetStates (h : (a.active w).isEmpty = false) : a.active w ∈ a.subsetStates :=
  ⟨h, w, rfl⟩

/-- The number of a set. -/
def stateNumber (a : Nfa) (s : IndexSet) : Nat := a.subsets.discover.idxOf s

theorem bijOn_stateNumber (ha : a.Shaped) :
    Set.BijOn a.stateNumber a.subsetStates (Set.Iio (Dfa.ofNfa a).stateCount) := by
  refine ⟨?_, ?_, ?_⟩
  · intro s hs
    rw [Set.mem_Iio, Dfa.ofNfa, Machine.stateCount_toDfa]
    exact List.idxOf_lt_length_of_mem ((mem_discover_subsets ha).mpr hs)
  · intro s hs t _ hst
    exact (List.idxOf_inj ((mem_discover_subsets ha).mpr hs)).mp hst
  · intro q hq
    obtain ⟨s, hs, hsq⟩ := Machine.exists_idxOf_of_lt hq
    exact ⟨s, (mem_discover_subsets ha).mp hs, hsq⟩

theorem stateNumber_start (a : Nfa) : a.stateNumber (a.active []) = 0 := a.subsets.idxOf_start

end Nfa

namespace Dfa

variable {a : Nfa} {s : IndexSet} {w w' : List Char} {c : Char}

theorem transition_ofNfa (ha : a.Shaped) (hs : s ∈ a.subsetStates) :
    (ofNfa a).transition (a.stateNumber s) c =
      if (a.advance s c).isEmpty then none else some (a.stateNumber (a.advance s c)) := by
  have hmem := (Nfa.mem_discover_subsets ha).mpr hs
  rw [ofNfa, Nfa.stateNumber, Machine.transition_toDfa (Nfa.covered_subsets ha) hmem,
    Nfa.next_subsets]
  split <;> rfl

theorem isAccepting_ofNfa (ha : a.Shaped) (hs : s ∈ a.subsetStates) :
    (ofNfa a).isAccepting (a.stateNumber s) = true ↔ a.final ∈ s := by
  rw [ofNfa, Nfa.stateNumber, Machine.isAccepting_toDfa ((Nfa.mem_discover_subsets ha).mpr hs)]
  exact decide_eq_true_iff

theorem run_ofNfa (ha : a.Shaped) :
    (ofNfa a).run w = if (a.active w).isEmpty then none else some (a.stateNumber (a.active w)) := by
  rw [ofNfa, Machine.run_toDfa (Nfa.covered_subsets ha), Nfa.run_subsets ha.closed]
  split <;> rfl

theorem run_ofNfa_eq_none (ha : a.Shaped) :
    (ofNfa a).run w = none ↔ (a.active w).isEmpty = true := by
  rw [run_ofNfa ha]
  cases (a.active w).isEmpty <;> simp

/-- Two words lead to one state when they lead to one set. -/
theorem run_ofNfa_inj (ha : a.Shaped) :
    (ofNfa a).run w = (ofNfa a).run w' ↔ a.active w = a.active w' := by
  constructor
  · intro h
    cases hw : (a.active w).isEmpty with
    | true =>
      have hw' : (a.active w').isEmpty = true := by
        rwa [← run_ofNfa_eq_none ha, ← h, run_ofNfa_eq_none ha]
      rw [IndexSet.isEmpty_iff] at hw hw'
      ext i
      exact iff_of_false (hw i) (hw' i)
    | false =>
      have hw' : (a.active w').isEmpty = false := by
        rw [Bool.eq_false_iff, Ne, ← run_ofNfa_eq_none ha, ← h, run_ofNfa_eq_none ha, hw]
        decide
      rw [run_ofNfa ha, run_ofNfa ha, hw, hw'] at h
      have hnum : a.stateNumber (a.active w) = a.stateNumber (a.active w') := by simpa using h
      exact (Nfa.bijOn_stateNumber ha).injOn (Nfa.active_mem_subsetStates hw)
        (Nfa.active_mem_subsetStates hw') hnum
  · intro h
    rw [run_ofNfa ha, run_ofNfa ha, h]

/-- **Both automata accept the same words.** -/
theorem simulate_ofNfa (ha : a.Shaped) :
    (ofNfa a).simulate w = .accepted ↔ a.accepts w = true := by
  rw [simulate, run_ofNfa ha, Nfa.accepts, decide_eq_true_eq]
  cases hw : (a.active w).isEmpty with
  | true =>
    have hfinal := IndexSet.isEmpty_iff.mp hw a.final
    simp [hfinal]
  | false =>
    rw [← isAccepting_ofNfa ha (Nfa.active_mem_subsetStates hw)]
    simp

theorem simulate_eq_rejected {d : Dfa} : d.simulate w = .rejected ↔ d.simulate w ≠ .accepted := by
  cases d.simulate w <;> simp

/-- **Determinization gives the automaton of the non-empty sets that runs reach.** The loop that
numbers them never meets a second target for a state and a symbol. -/
theorem ofNfa_exact {a : Nfa} (ha : a.Built) :
    ∃ (id : IndexSet → Nat) (out : Machine.Worklist IndexSet),
      Machine.Worklist.Finishes a.subsets (.start a.subsets) out ∧
      (∀ s q, (s, q) ∈ out.numbers ↔ s ∈ a.subsetStates ∧ id s = q) ∧
      out.counter = (ofNfa a).stateCount ∧
      (∀ q c r, (q, c, r) ∈ out.table ↔ (ofNfa a).transition q c = some r) ∧
      (∀ q, q ∈ out.accepting ↔ (ofNfa a).isAccepting q = true) ∧
      Set.BijOn id a.subsetStates (Set.Iio (ofNfa a).stateCount) ∧
      (ofNfa a).start = 0 ∧ id (a.active []) = 0 ∧
      (∀ s ∈ a.subsetStates, ∀ c, (ofNfa a).transition (id s) c =
        if (a.advance s c).isEmpty then none else some (id (a.advance s c))) ∧
      (∀ s ∈ a.subsetStates, (ofNfa a).isAccepting (id s) = true ↔ a.final ∈ s) ∧
      (∀ q, (ofNfa a).stateCount ≤ q →
        (ofNfa a).isAccepting q = false ∧ (ofNfa a).movesFrom q = []) ∧
      (∀ q, ((ofNfa a).movesFrom q).Pairwise (·.1 < ·.1)) ∧
      (∀ w, (ofNfa a).run w =
        if (a.active w).isEmpty then none else some (id (a.active w))) ∧
      (∀ w w', (ofNfa a).run w = (ofNfa a).run w' ↔ a.active w = a.active w') ∧
      ∀ w, (ofNfa a).run w = none ↔ (a.active w).isEmpty = true := by
  have hs := ha.shaped
  obtain ⟨out, hout, hnumbers, hcounter, htable, haccepting⟩ :=
    Machine.rounds_toDfa (Nfa.covered_subsets hs)
  have hmap : ∀ s q, (s, q) ∈ out.numbers ↔ s ∈ a.subsetStates ∧ a.stateNumber s = q := by
    intro s q
    rw [hnumbers, Nfa.mem_discover_subsets hs]
    rfl
  refine ⟨a.stateNumber, out, hout, hmap, hcounter, htable, haccepting,
    Nfa.bijOn_stateNumber hs, rfl, a.stateNumber_start, ?_, ?_, ?_, ?_, ?_, ?_, ?_⟩
  · intro s hmem c
    exact transition_ofNfa hs hmem
  · intro s hmem
    exact isAccepting_ofNfa hs hmem
  · intro q hq
    exact ⟨Machine.isAccepting_of_stateCount_le hq, Machine.movesFrom_of_stateCount_le hq⟩
  · exact a.subsets.movesFrom_ascending
  · intro w
    exact run_ofNfa hs
  · intro w w'
    exact run_ofNfa_inj hs
  · intro w
    exact run_ofNfa_eq_none hs

/-- Of the repetition of a symbol there are two sets: before the first symbol, and after one. -/
theorem ofNfa_exact_star :
    (Nfa.symbol 'a').star.Built ∧ ∃ id : IndexSet → Nat,
      Set.BijOn id (Nfa.symbol 'a').star.subsetStates (Set.Iio 2) ∧
      id ((Nfa.symbol 'a').star.active []) = 0 := by
  have hbuilt : (Nfa.symbol 'a').star.Built := .star (.symbol 'a')
  have hcount : (ofNfa (Nfa.symbol 'a').star).stateCount = 2 := by cbv
  obtain ⟨id, -, -, -, -, -, -, hbij, -, hstart, -⟩ := ofNfa_exact hbuilt
  rw [hcount] at hbij
  exact ⟨hbuilt, id, hbij, hstart⟩

end Dfa
end PatternAutomata
