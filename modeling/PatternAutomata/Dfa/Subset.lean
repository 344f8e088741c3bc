import PatternAutomata.Dfa.Machine
import PatternAutomata.Nfa.Run
/-!
# The subset construction

The sets of states that the runs of a nondeterministic automaton can be in are the states of a
machine, once the empty set is left out.
-/
namespace PatternAutomata

namespace Nfa

/-- A number that exceeds every target of an edge and is at least the size. -/
def targetBound (a : Nfa) : Nat :=
  a.rows.toList.flatten.foldr (fun e b => max (e.target + 1) b) a.size

theorem size_le_targetBound (a : Nfa) : a.size ≤ a.targetBound := by
  unfold targetBound
  induction a.rows.toList.flatten with
  | nil => exact Nat.le_refl _
  | cons e es ih => exact Nat.le_trans ih (Nat.le_max_right _ _)

theorem target_lt_targetBound {a : Nfa} {q : Nat} {e : Edge} (h : e ∈ a.edgesFrom q) :
    e.target < a.targetBound := by
  have hm : e ∈ a.rows.toList.flatten := by
    simp only [edgesFrom] at h
    cases hr : a.rows[q]? with
    | none => simp [hr] at h
    | some row =>
      have hrow : row ∈ a.rows.toList := Array.mem_toList_iff.mpr (Array.mem_of_getElem? hr)
      exact List.mem_flatten.mpr ⟨row, hrow, by simpa [hr] using h⟩
  unfold targetBound
  generalize a.rows.toList.flatten = es at hm
  induction es with
  | nil => cases hm
  | cons d ds ih =>
    rcases List.mem_cons.mp hm with rfl | hm
    · exact Nat.le_max_left _ _
    · exact Nat.lt_of_lt_of_le (ih hm) (Nat.le_max_right _ _)

theorem lt_targetBound_of_mem_advance {a : Nfa} {s : IndexSet} {c : Char} {i : Nat}
    (h : i ∈ a.advance s c) : i < a.targetBound := by
  rcases mem_seeds_or_lt h with h | h
  · obtain ⟨q, -, he⟩ := mem_moveOn.mp h
    exact target_lt_targetBound he
  · exact Nat.lt_of_lt_of_le h (size_le_targetBound a)

/-- The machine whose states are the sets of states of `a`. -/
def subsets (a : Nfa) : Machine IndexSet where
  start := a.startSet
  symbols := a.alphabet
  next s c := Option.guard (fun t => !t.isEmpty) (a.advance s c)
  accepts s := decide (a.final ∈ s)
  finite := by
    obtain ⟨all, hall⟩ := IndexSet.exists_list_of_bounded a.targetBound
    refine ⟨all, fun s c t h => hall t fun i hi => ?_⟩
    obtain ⟨rfl, -⟩ := Option.guard_eq_some_iff.mp h
    exact lt_targetBound_of_mem_advance hi

end Nfa

/-- The deterministic automaton of `a`. -/
def Dfa.ofNfa (a : Nfa) : Dfa := a.subsets.toDfa

end PatternAutomata
