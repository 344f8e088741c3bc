import Mathlib.Algebra.BigOperators.Group.Finset.Basic
import Mathlib.Algebra.Order.BigOperators.Group.Finset
import Mathlib.Data.Finset.Powerset
import Mathlib.Order.Interval.Finset.Nat
import Mathlib.Tactic.Choose
import PatternAutomata.Proofs.Homogeneity
import PatternAutomata.Proofs.ParseGrammar
import PatternAutomata.Proofs.ThompsonInjective
/-!
# How many states a pattern has

The automaton of a tree has an entry for every occurrence of a literal (`Tree.entries`). A set of
states that a run is in after the literal `c` is the closure of a set of entries for `c`, which is
not empty; so besides the start there are at most `2 ^ n - 1` states for a literal with `n`
occurrences (`stateCount_ofTree_le`). There is at least one, because each literal is read by some
run, and different literals lead to different states (`le_stateCount_ofTree`).
-/
namespace PatternAutomata

/-! ## Entries and occurrences -/

namespace Tree

open Nfa (ofTree)

/-- The states of the automaton that edges for `c` lead to, one for each occurrence of `c`. -/
def entries (c : Char) : Tree → List Nat
  | literal d => if d = c then [1] else []
  | sequence x y => x.entries c ++ (y.entries c).map (· + (ofTree x).final)
  | alternative x y => (x.entries c).map (· + 1) ++ (y.entries c).map (· + ((ofTree x).size + 1))
  | star x | optional x => (x.entries c).map (· + 1)

variable {t : Tree} {c : Char} {r : Nat}

theorem length_entries (c : Char) (t : Tree) : (t.entries c).length = t.literals.count c := by
  induction t with
  | literal d =>
    by_cases hd : d = c <;> simp [entries, literals, hd]
  | sequence x y hx hy | alternative x y hx hy => simp [entries, literals, hx, hy]
  | star x hx | optional x hx => simp [entries, literals, hx]

theorem mem_entries : r ∈ t.entries c ↔ (ofTree t).Entry c r := by
  induction t generalizing r with
  | literal d =>
    rw [ofTree, Nfa.Shaped.entry_symbol, entries]
    by_cases hd : d = c
    · simp [hd]
    · simp [hd, Ne.symm hd]
  | sequence x y hx hy =>
    rw [ofTree, (shaped_ofTree x).entry_concat, entries]
    simp only [List.mem_append, List.mem_map, hx, hy, and_comm, eq_comm]
  | alternative x y hx hy =>
    rw [ofTree, (shaped_ofTree x).entry_alternate (shaped_ofTree y), entries]
    simp only [List.mem_append, List.mem_map, hx, hy, and_comm, eq_comm]
  | star x hx =>
    rw [ofTree, (shaped_ofTree x).entry_star, entries]
    simp only [List.mem_map, hx, and_comm, eq_comm]
  | optional x hx =>
    rw [ofTree, (shaped_ofTree x).entry_optional, entries]
    simp only [List.mem_map, hx, and_comm, eq_comm]

theorem mem_literals_of_entry (h : (ofTree t).Entry c r) : c ∈ t.literals := by
  have hlength : 0 < (t.entries c).length := List.length_pos_of_mem (mem_entries.mpr h)
  rw [length_entries] at hlength
  exact List.count_pos_iff.mp hlength

end Tree

/-! ## At most -/

open scoped BigOperators

variable {t : Tree} {c : Char}

namespace Nfa

/-- The closures of the sets of entries for `c` that are not empty. -/
noncomputable def entryClosures (t : Tree) (c : Char) : Finset IndexSet :=
  ((t.entries c).toFinset.powerset.erase ∅).image fun s => (ofTree t).closure (.ofList s.toList)

theorem card_entryClosures_le (t : Tree) (c : Char) :
    (entryClosures t c).card ≤ 2 ^ t.literals.count c - 1 := by
  have hempty : ∅ ∈ (t.entries c).toFinset.powerset := Finset.empty_mem_powerset _
  have hentries : (t.entries c).toFinset.card ≤ t.literals.count c := by
    rw [← Tree.length_entries]
    exact List.toFinset_card_le _
  calc (entryClosures t c).card
      ≤ ((t.entries c).toFinset.powerset.erase ∅).card := Finset.card_image_le
    _ = 2 ^ (t.entries c).toFinset.card - 1 := by
        rw [Finset.card_erase_of_mem hempty, Finset.card_powerset]
    _ ≤ 2 ^ t.literals.count c - 1 :=
        Nat.sub_le_sub_right (Nat.pow_le_pow_right Nat.two_pos hentries) 1

/-- What a run is in after `c` is such a closure. -/
theorem advance_mem_entryClosures {s : IndexSet}
    (hne : ((ofTree t).advance s c).isEmpty = false) :
    (ofTree t).advance s c ∈ entryClosures t c := by
  have hclosed := (built_ofTree t).shaped.closed
  obtain ⟨i, hi⟩ := exists_mem_of_isEmpty_eq_false hne
  obtain ⟨q, hq, -⟩ := (mem_closure hclosed).mp hi
  have hentry : ∀ r ∈ (ofTree t).moveOn s c, r ∈ t.entries c := fun r hr =>
    Tree.mem_entries.mpr (entry_of_mem_moveOn hr)
  let found := (t.entries c).toFinset.filter (· ∈ (ofTree t).moveOn s c)
  have hfound : ∀ r, r ∈ found ↔ r ∈ (ofTree t).moveOn s c := by
    intro r
    rw [Finset.mem_filter, List.mem_toFinset]
    exact and_iff_right_of_imp (hentry r)
  refine Finset.mem_image.mpr ⟨found, ?_, ?_⟩
  · rw [Finset.mem_erase, Finset.mem_powerset]
    exact ⟨Finset.ne_empty_of_mem ((hfound q).mpr hq), Finset.filter_subset _ _⟩
  · have hset : IndexSet.ofList found.toList = (ofTree t).moveOn s c := by
      ext r
      rw [IndexSet.mem_ofList, Finset.mem_toList, hfound]
    rw [hset, advance]

/-- Every set but the first is reached after a literal. -/
theorem mem_entryClosures_of_mem_discover {s : IndexSet} (hs : s ∈ (ofTree t).subsets.discover)
    (hstart : s ≠ (ofTree t).startSet) :
    ∃ c ∈ t.literals, s ∈ entryClosures t c := by
  have hshaped := (built_ofTree t).shaped
  obtain ⟨hne, w, rfl⟩ := (mem_discover_subsets hshaped).mp hs
  cases w using List.reverseRecOn with
  | nil => exact absurd rfl hstart
  | append_singleton u c =>
    rw [active_concat] at hne ⊢
    obtain ⟨i, hi⟩ := exists_mem_of_isEmpty_eq_false hne
    obtain ⟨q, hq, -⟩ := (mem_closure hshaped.closed).mp hi
    exact ⟨c, Tree.mem_literals_of_entry (entry_of_mem_moveOn hq), advance_mem_entryClosures hne⟩

end Nfa

namespace Dfa

open Nfa (entryClosures)

theorem stateCount_ofTree_pos (t : Tree) : 0 < (ofTree t).stateCount := by
  obtain ⟨rest, hrest⟩ := (Nfa.ofTree t).subsets.discover_eq_start_cons
  rw [ofTree, ofNfa, Machine.stateCount_toDfa, hrest]
  exact Nat.succ_pos _

theorem stateCount_ofTree_le (t : Tree) :
    (ofTree t).stateCount ≤ 1 + ∑ c ∈ t.literals.toFinset, (2 ^ t.literals.count c - 1) := by
  obtain ⟨rest, hrest⟩ := (Nfa.ofTree t).subsets.discover_eq_start_cons
  have hnodup := (Nfa.ofTree t).subsets.nodup_discover
  rw [hrest, List.nodup_cons] at hnodup
  obtain ⟨hstart, hnodup⟩ := hnodup
  have hsubset : rest.toFinset ⊆ t.literals.toFinset.biUnion (entryClosures t) := by
    intro s hs
    rw [List.mem_toFinset] at hs
    have hmem : s ∈ (Nfa.ofTree t).subsets.discover := by
      rw [hrest]
      exact List.mem_cons_of_mem _ hs
    have hne : s ≠ (Nfa.ofTree t).startSet := ne_of_mem_of_not_mem hs hstart
    obtain ⟨c, hc, hclosure⟩ := Nfa.mem_entryClosures_of_mem_discover hmem hne
    exact Finset.mem_biUnion.mpr ⟨c, List.mem_toFinset.mpr hc, hclosure⟩
  have hcount : (ofTree t).stateCount = 1 + rest.toFinset.card := by
    rw [ofTree, ofNfa, Machine.stateCount_toDfa, hrest, List.length_cons,
      List.toFinset_card_of_nodup hnodup, Nat.add_comm]
  rw [hcount]
  refine Nat.add_le_add_left ?_ 1
  calc rest.toFinset.card
      ≤ (t.literals.toFinset.biUnion (entryClosures t)).card := Finset.card_le_card hsubset
    _ ≤ ∑ c ∈ t.literals.toFinset, (entryClosures t c).card := Finset.card_biUnion_le
    _ ≤ ∑ c ∈ t.literals.toFinset, (2 ^ t.literals.count c - 1) :=
        Finset.sum_le_sum fun c _ => Nfa.card_entryClosures_le t c

/-! ## At least -/

/-- A literal leads to a state that is not the start. -/
theorem exists_transition_ofTree (hc : c ∈ t.literals) :
    ∃ q r, (ofTree t).transition q c = some r ∧ r ∈ Finset.Ico 1 (ofTree t).stateCount := by
  have hbuilt := Nfa.built_ofTree t
  have halphabet : (ofTree t).alphabet = .ofList t.literals := by
    rw [ofTree, alphabet_ofNfa hbuilt, Nfa.alphabet_ofTree]
  have hmem : c ∈ (ofTree t).alphabet := by rwa [halphabet, SymbolSet.mem_ofList]
  obtain ⟨q, r, h⟩ := mem_alphabet.mp hmem
  have hzero : r ≠ 0 := (homogeneous_ofNfa hbuilt).target_ne_zero q c r h
  have hlt : r < (ofTree t).stateCount := by
    obtain ⟨s, hs, hne, rfl⟩ := exists_advance_of_transition hbuilt h
    exact (Nfa.bijOn_stateNumber hbuilt.shaped).mapsTo (Nfa.advance_mem_subsetStates hs hne)
  exact ⟨q, r, h, Finset.mem_Ico.mpr ⟨Nat.pos_of_ne_zero hzero, hlt⟩⟩

theorem le_stateCount_ofTree (t : Tree) :
    1 + t.literals.toFinset.card ≤ (ofTree t).stateCount := by
  have htarget : ∀ c ∈ t.literals.toFinset, ∃ r ∈ Finset.Ico 1 (ofTree t).stateCount,
      ∃ q, (ofTree t).transition q c = some r := by
    intro c hc
    obtain ⟨q, r, h, hr⟩ := exists_transition_ofTree (List.mem_toFinset.mp hc)
    exact ⟨r, hr, q, h⟩
  choose! target hmem hentered using htarget
  have hinj : Set.InjOn target t.literals.toFinset := by
    intro c hc c' hc' hcc
    obtain ⟨q, h⟩ := hentered c hc
    obtain ⟨q', h'⟩ := hentered c' hc'
    rw [hcc] at h
    exact (homogeneous_ofNfa (Nfa.built_ofTree t)).symbol_eq q q' c c' _ h h'
  have hcard := Finset.card_le_card_of_injOn target hmem hinj
  rw [Nat.card_Ico] at hcard
  have hpos : 0 < (ofTree t).stateCount := stateCount_ofTree_pos t
  omega

end Dfa

/-- **The literals of a pattern bound the number of its states.** Each adds at least one state to
the start, and one that occurs `n` times at most `2 ^ n - 1`; so if no literal is repeated there is
one state for each, however the pattern nests them. -/
theorem compile_stateCount {p : List Char} {t : Tree} (h : parse p = .ok t) :
    ∃ d, compile p = .ok d ∧
      1 + (p.filter isLiteralChar).toFinset.card ≤ d.stateCount ∧
      d.stateCount ≤ 1 + ∑ c ∈ (p.filter isLiteralChar).toFinset, (2 ^ p.count c - 1) ∧
      ((p.filter isLiteralChar).Nodup → d.stateCount = 1 + (p.filter isLiteralChar).length) := by
  have hliterals := literals_of_parse h
  have hlower := Dfa.le_stateCount_ofTree t
  have hupper := Dfa.stateCount_ofTree_le t
  rw [hliterals] at hlower hupper
  have hcount : ∀ c ∈ (p.filter isLiteralChar).toFinset,
      (p.filter isLiteralChar).count c = p.count c := by
    intro c hc
    exact List.count_filter (List.mem_filter.mp (List.mem_toFinset.mp hc)).2
  refine ⟨_, compile_of_parse h, hlower, ?_, ?_⟩
  · rwa [Finset.sum_congr rfl fun c hc => by rw [hcount c hc]] at hupper
  · intro hnodup
    rw [List.toFinset_card_of_nodup hnodup] at hlower
    have hsum : ∑ c ∈ (p.filter isLiteralChar).toFinset,
        (2 ^ (p.filter isLiteralChar).count c - 1) = (p.filter isLiteralChar).length := by
      rw [← List.toFinset_card_of_nodup hnodup, Finset.card_eq_sum_ones]
      refine Finset.sum_congr rfl fun c hc => ?_
      rw [List.count_eq_one_of_mem hnodup (List.mem_toFinset.mp hc)]
      rfl
    rw [hsum] at hupper
    exact Nat.le_antisymm hupper hlower

/-- Three literals under nested quantifiers. -/
theorem compile_stateCount_nested :
    ∃ d, compile "((a*|b)?c)*".toList = .ok d ∧ d.stateCount = 4 := by
  have hparse : parse "((a*|b)?c)*".toList = .ok (.star (.sequence (.optional
      (.alternative (.star (.literal 'a')) (.literal 'b'))) (.literal 'c'))) := by decide
  have hliterals : "((a*|b)?c)*".toList.filter isLiteralChar = ['a', 'b', 'c'] := by decide
  obtain ⟨d, hd, -, -, hdistinct⟩ := compile_stateCount hparse
  rw [hliterals] at hdistinct
  exact ⟨d, hd, hdistinct (by decide)⟩

end PatternAutomata
