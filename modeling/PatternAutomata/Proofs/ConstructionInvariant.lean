import PatternAutomata.Proofs.Assembly
import PatternAutomata.Proofs.Trim
/-!
# What every construction keeps

Automata are built call by call, and each call may use any results of earlier ones, the same one
several times. Whatever the calls are, no check of the step-by-step assembly fails, and every result
is well-formed (`runAll_wellFormed`): its two ends are the first and the last state, its rows hold
one edge for a symbol or one or two that consume nothing, its alphabet is the set of symbols on
edges, and no state could be left out.
-/
namespace PatternAutomata.Nfa

/-! ## Rows -/

/-- The edges of a state that is not final: one for a symbol, or one or two that consume nothing. -/
inductive IsRow : List Edge → Prop
  | symbol (c : Char) (r : Nat) : IsRow [⟨.symbol c, r⟩]
  | one (r : Nat) : IsRow [.epsilonTo r]
  | two {r s : Nat} (h : r ≠ s) : IsRow [.epsilonTo r, .epsilonTo s]

namespace IsRow

variable {es : List Edge}

theorem shift (h : IsRow es) (offset : Nat) : IsRow (es.map (Edge.shift offset)) := by
  cases h with
  | symbol c r => exact .symbol c (r + offset)
  | one r => exact .one (r + offset)
  | @two r s h =>
    have hne : r + offset ≠ s + offset := by omega
    exact .two hne

theorem nodup (h : IsRow es) : es.Nodup := by
  cases h with
  | symbol c r => simp
  | one r => simp
  | two h => simpa [Edge.epsilonTo] using h

end IsRow

namespace Shaped

variable {a b c : Nfa} (ha : a.Shaped) (hb : b.Shaped)
include ha

theorem isRow_concat (ra : ∀ q < a.final, IsRow (a.edgesFrom q))
    (rb : ∀ q < b.final, IsRow (b.edgesFrom q)) :
    ∀ q < (a.concat b).final, IsRow ((a.concat b).edgesFrom q) := by
  intro q hq
  rw [ha.final_concat] at hq
  by_cases hqa : q < a.final
  · rw [ha.edgesFrom_concat_first hqa]
    exact ra q hqa
  · obtain ⟨s, rfl⟩ : ∃ s, q = s + a.final := ⟨q - a.final, by omega⟩
    rw [ha.edgesFrom_concat_second]
    exact (rb s (by omega)).shift _

include hb in
theorem isRow_alternate (ra : ∀ q < a.final, IsRow (a.edgesFrom q))
    (rb : ∀ q < b.final, IsRow (b.edgesFrom q)) :
    ∀ q < (a.alternate b).final, IsRow ((a.alternate b).edgesFrom q) := by
  have hsa := ha.size_eq
  have hsb := hb.size_eq
  intro q hq
  have hsize := ha.size_alternate hb
  rw [final_alternate] at hq
  rcases ha.cases_alternate hb (q := q) (by omega) with rfl | ⟨s, hs, rfl⟩ | ⟨s, hs, rfl⟩ | rfl
  · have hne : 1 ≠ a.size + 1 := by omega
    rw [ha.edgesFrom_alternate hb]
    exact .two hne
  · by_cases hlast : s < a.final
    · rw [ha.edgesFrom_alternate_first hb hlast]
      exact (ra s hlast).shift _
    · obtain rfl : s = a.final := by omega
      rw [← ha.size_eq, ha.edgesFrom_alternate_final hb]
      exact .one _
  · by_cases hlast : s < b.final
    · rw [ha.edgesFrom_alternate_second hb hlast]
      exact (rb s hlast).shift _
    · have hsum : s + (a.size + 1) = a.size + b.size := by omega
      rw [hsum, ha.edgesFrom_alternate_last hb]
      exact .one _
  · omega

/-- What `star` and `optional` share: only the exits of the operand's final state differ. -/
theorem isRow_wrapped {exits : List Nat} (ra : ∀ q < a.final, IsRow (a.edgesFrom q))
    (hexits : IsRow (exits.map Edge.epsilonTo))
    (hedges : ∀ q, c.edgesFrom q = match q with
      | 0 => [1, a.size + 1].map Edge.epsilonTo
      | q + 1 => (a.edgesFrom q).map (Edge.shift 1) ++
          if q = a.final then exits.map Edge.epsilonTo else []) :
    ∀ q < a.size + 1, IsRow (c.edgesFrom q) := by
  have hsa := ha.size_eq
  intro q hq
  rw [hedges]
  cases q with
  | zero =>
    have hne : 1 ≠ a.size + 1 := by omega
    exact .two hne
  | succ q =>
    by_cases hlast : q = a.final
    · simpa [hlast, ha.final_edges] using hexits
    · simpa [hlast] using (ra q (by omega)).shift 1

theorem isRow_star (ra : ∀ q < a.final, IsRow (a.edgesFrom q)) :
    ∀ q < a.star.final, IsRow (a.star.edgesFrom q) := by
  have hexits : IsRow ([0, a.size + 1].map Edge.epsilonTo) := .two (Nat.succ_ne_zero _).symm
  exact ha.isRow_wrapped ra hexits ha.edgesFrom_star

theorem isRow_optional (ra : ∀ q < a.final, IsRow (a.edgesFrom q)) :
    ∀ q < a.optional.final, IsRow (a.optional.edgesFrom q) := by
  have hexits : IsRow ([a.size + 1].map Edge.epsilonTo) := .one _
  exact ha.isRow_wrapped ra hexits ha.edgesFrom_optional

end Shaped

theorem Built.isRow {a : Nfa} (h : a.Built) : ∀ q < a.final, IsRow (a.edgesFrom q) := by
  induction h with
  | symbol c =>
    intro q hq
    obtain rfl : q = 0 := Nat.lt_one_iff.mp hq
    exact .symbol c 1
  | concat ha hb ra rb => exact ha.shaped.isRow_concat ra rb
  | alternate ha hb ra rb => exact ha.shaped.isRow_alternate hb.shaped ra rb
  | star ha ra => exact ha.shaped.isRow_star ra
  | optional ha ra => exact ha.shaped.isRow_optional ra

/-! ## Well-formed automata -/

structure WellFormed (a : Nfa) : Prop where
  initial_eq : a.initial = 0
  final_eq : a.final + 1 = a.size
  final_edges : a.edgesFrom a.final = []
  target_lt : ∀ q, ∀ e ∈ a.edgesFrom q, e.target < a.size
  nodup : ∀ q, (a.edgesFrom q).Nodup
  isRow : ∀ q < a.size, q ≠ a.final → IsRow (a.edgesFrom q)
  mem_alphabet : ∀ c, c ∈ a.alphabet ↔ ∃ q r, a.Step q (.symbol c) r
  trim : a.Trim

theorem Built.wellFormed {a : Nfa} (h : a.Built) : a.WellFormed where
  initial_eq := h.shaped.initial_eq
  final_eq := h.shaped.size_eq.symm
  final_edges := h.shaped.final_edges
  target_lt := fun q e he => h.shaped.closed q e.label e.target he
  nodup := by
    intro q
    by_cases hq : q < a.final
    · exact (h.isRow q hq).nodup
    · rw [h.shaped.edgesFrom_of_final_le (Nat.not_lt.mp hq)]
      exact List.nodup_nil
  isRow := by
    intro q hq hne
    have hsize := h.shaped.size_eq
    exact h.isRow q (by omega)
  mem_alphabet := h.shaped.mem_alphabet
  trim := h.trim

/-! ## Calls in sequence -/

/-- A call of a constructor; operands are given by their places among the results so far. -/
inductive Call where
  | symbol (c : Char)
  | concat (i j : Nat)
  | alternate (i j : Nat)
  | star (i : Nat)
  | optional (i : Nat)

namespace Call

/-- The operands are among the first `n` results. -/
def InScope (n : Nat) : Call → Prop
  | symbol _ => True
  | concat i j | alternate i j => i < n ∧ j < n
  | star i | optional i => i < n

/-- The call with all its checks; there is no result if one fails or an operand is missing. -/
def run (results : List Nfa) : Call → Option Nfa
  | symbol c => Assembly.symbol c
  | concat i j => do
    let a ← results[i]?
    let b ← results[j]?
    Assembly.concat a b
  | alternate i j => do
    let a ← results[i]?
    let b ← results[j]?
    Assembly.alternate a b
  | star i => do
    let a ← results[i]?
    Assembly.star a
  | optional i => do
    let a ← results[i]?
    Assembly.optional a

/-- Every call uses only results that are there. -/
def AllInScope : Nat → List Call → Prop
  | _, [] => True
  | n, call :: calls => call.InScope n ∧ AllInScope (n + 1) calls

/-- The results so far and those of further calls, in order. -/
def runAll (results : List Nfa) : List Call → Option (List Nfa)
  | [] => some results
  | call :: calls => do
    let a ← call.run results
    runAll (results ++ [a]) calls

variable {results : List Nfa} {i : Nat}

theorem exists_operand (h : ∀ a ∈ results, a.Built) (hi : i < results.length) :
    ∃ a, results[i]? = some a ∧ a.Built :=
  ⟨_, List.getElem?_eq_getElem hi, h _ (List.getElem_mem hi)⟩

/-- **A call on results of earlier calls passes all its checks.** -/
theorem run_eq_some {call : Call} (h : ∀ a ∈ results, a.Built)
    (hscope : call.InScope results.length) : ∃ a, call.run results = some a ∧ a.Built := by
  cases call with
  | symbol c => exact ⟨_, assembly_symbol c, .symbol c⟩
  | concat i j =>
    obtain ⟨a, hi, ha⟩ := exists_operand h hscope.1
    obtain ⟨b, hj, hb⟩ := exists_operand h hscope.2
    refine ⟨_, ?_, ha.concat hb⟩
    simp [run, hi, hj, ha.shaped.assembly_concat hb.shaped]
  | alternate i j =>
    obtain ⟨a, hi, ha⟩ := exists_operand h hscope.1
    obtain ⟨b, hj, hb⟩ := exists_operand h hscope.2
    refine ⟨_, ?_, ha.alternate hb⟩
    simp [run, hi, hj, ha.shaped.assembly_alternate hb.shaped]
  | star i =>
    obtain ⟨a, hi, ha⟩ := exists_operand h hscope
    refine ⟨_, ?_, ha.star⟩
    simp [run, hi, ha.shaped.assembly_star]
  | optional i =>
    obtain ⟨a, hi, ha⟩ := exists_operand h hscope
    refine ⟨_, ?_, ha.optional⟩
    simp [run, hi, ha.shaped.assembly_optional]

/-- Every result of a sequence of calls can be built, if the results before it could. -/
theorem runAll_eq_some {calls : List Call} (h : ∀ a ∈ results, a.Built)
    (hscope : AllInScope results.length calls) :
    ∃ all, runAll results calls = some all ∧ all.length = results.length + calls.length ∧
      ∀ a ∈ all, a.Built := by
  induction calls generalizing results with
  | nil => exact ⟨results, rfl, rfl, h⟩
  | cons call calls ih =>
    obtain ⟨a, hrun, ha⟩ := run_eq_some h hscope.1
    have hresults : ∀ b ∈ results ++ [a], b.Built := by
      intro b hb
      rcases List.mem_append.mp hb with hb | hb
      · exact h b hb
      · rw [List.mem_singleton.mp hb]
        exact ha
    have hlength : (results ++ [a]).length = results.length + 1 := by simp
    obtain ⟨all, hall, hcount, hbuilt⟩ := ih hresults (by rw [hlength]; exact hscope.2)
    refine ⟨all, ?_, ?_, hbuilt⟩
    · rw [runAll, hrun]
      exact hall
    · rw [hcount, hlength, List.length_cons]
      omega

end Call

/-- **Whatever the calls, no check fails and every result is well-formed.** -/
theorem runAll_wellFormed {calls : List Call} (h : Call.AllInScope 0 calls) :
    ∃ results, Call.runAll [] calls = some results ∧ results.length = calls.length ∧
      ∀ a ∈ results, a.WellFormed := by
  have hnone : ∀ a ∈ ([] : List Nfa), a.Built := by simp
  obtain ⟨results, hrun, hlength, hbuilt⟩ := Call.runAll_eq_some hnone h
  refine ⟨results, hrun, ?_, fun a ha => (hbuilt a ha).wellFormed⟩
  simpa using hlength

/-- An optional symbol twice in sequence, repeated: one result is both operands of a call. -/
theorem runAll_wellFormed_copied :
    Call.AllInScope 0 [.symbol 'a', .optional 0, .concat 1 1, .star 2] ∧
      ∃ results, Call.runAll [] [.symbol 'a', .optional 0, .concat 1 1, .star 2] = some results ∧
        results.length = 4 ∧ ∀ a ∈ results, a.WellFormed := by
  have h : Call.AllInScope 0 [.symbol 'a', .optional 0, .concat 1 1, .star 2] := by
    simp [Call.AllInScope, Call.InScope]
  exact ⟨h, runAll_wellFormed h⟩

end PatternAutomata.Nfa
