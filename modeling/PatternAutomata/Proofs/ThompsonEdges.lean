import PatternAutomata.Nfa.Thompson
import PatternAutomata.Proofs.Reachability
/-!
# The edges of composed automata

The operands' rows are shifted, laid one after the other and joined by a few edges that consume
nothing. Each `edgesFrom_` lemma gives the edges of a composed automaton in their order, and each
`step_` lemma the same as a relation: an operand's edge, moved, or one of the joining edges. From
these `Built.shaped` follows for every automaton that can be built: states 0 and `final` are its two
ends, no edge leaves the final one or the automaton, and the alphabet is the set of symbols on
edges.
-/
namespace PatternAutomata

/-! ## Rows -/

namespace Nfa

theorem edgesFrom_eq (a : Nfa) (q : Nat) : a.edgesFrom q = a.rows.toList[q]?.getD [] := by
  simp [edgesFrom]

theorem edgesFrom_of_size_le {a : Nfa} {q : Nat} (h : a.size ≤ q) : a.edgesFrom q = [] := by
  have hq : a.rows[q]? = none := Array.getElem?_eq_none h
  simp [edgesFrom, hq]

/-- Two automata are the same if their states have the same edges. -/
theorem eq_of_edgesFrom {a b : Nfa} (hinitial : a.initial = b.initial) (hfinal : a.final = b.final)
    (halphabet : a.alphabet = b.alphabet) (hsize : a.size = b.size)
    (h : ∀ q, a.edgesFrom q = b.edgesFrom q) : a = b := by
  have hrows : a.rows = b.rows := by
    refine Array.ext hsize fun q hq hq' => ?_
    have hrow := h q
    simpa [edgesFrom, hq, hq'] using hrow
  cases a
  cases b
  simp_all

theorem length_rows (a : Nfa) : a.rows.toList.length = a.size := rfl

theorem length_shiftRows (offset : Nat) (rows : List (List Edge)) :
    (shiftRows offset rows).length = rows.length := by
  simp [shiftRows]

theorem getD_shiftRows (offset : Nat) (rows : List (List Edge)) (q : Nat) :
    (shiftRows offset rows)[q]?.getD [] = (rows[q]?.getD []).map (Edge.shift offset) := by
  unfold shiftRows
  rw [List.getElem?_map]
  cases rows[q]? <;> rfl

theorem getD_append (upper lower : List (List Edge)) (q : Nat) :
    (upper ++ lower)[q]?.getD [] =
      upper[q]?.getD [] ++ if upper.length ≤ q then lower[q - upper.length]?.getD [] else [] := by
  rw [List.getElem?_append]
  split
  · next h => simp [Nat.not_le_of_lt h]
  · next h => simp [Nat.not_lt.mp h]

/-- A row without edges at the end makes no difference. -/
theorem getD_append_emptyRow (rows : List (List Edge)) (q : Nat) :
    (rows ++ [[]])[q]?.getD [] = rows[q]?.getD [] := by
  have hlast : ∀ k : Nat, ([[]] : List (List Edge))[k]?.getD [] = [] := by
    intro k
    cases k <;> rfl
  rw [getD_append, hlast, ite_self, List.append_nil]

theorem length_fuse {upper lower : List (List Edge)} (hu : upper ≠ []) (hl : lower ≠ []) :
    (fuse upper lower).length + 1 = upper.length + lower.length := by
  fun_induction fuse upper lower with
  | case1 => exact absurd rfl hu
  | case2 => exact absurd rfl hl
  | case3 row first lower =>
    simp only [List.length_cons, List.length_nil]
    omega
  | case4 lower row next upper ih =>
    have hlen := ih (by simp) hl
    simp only [List.length_cons] at hlen ⊢
    omega

/-- Fusing joins the last row of the upper list and the first one of the lower list. -/
theorem getD_fuse {upper lower : List (List Edge)} (hu : upper ≠ []) (q : Nat) :
    (fuse upper lower)[q]?.getD [] =
      upper[q]?.getD [] ++
        if upper.length ≤ q + 1 then lower[q + 1 - upper.length]?.getD [] else [] := by
  fun_induction fuse upper lower generalizing q with
  | case1 => exact absurd rfl hu
  | case2 row => simp
  | case3 row first lower => cases q <;> simp
  | case4 lower row next upper ih =>
    cases q with
    | zero => simp
    | succ q =>
      have hrow := ih (by simp) q
      simp only [List.length_cons] at hrow
      simp only [List.getElem?_cons_succ, List.length_cons, Nat.add_le_add_iff_right, hrow,
        Nat.add_sub_add_right]

theorem length_withExits {rows : List (List Edge)} (h : rows ≠ []) (exits : List Nat) :
    (withExits rows exits).length = rows.length := by
  have hexits : [exits.map Edge.epsilonTo] ≠ [] := by simp
  have hlen := length_fuse h hexits
  simp only [List.length_cons, List.length_nil] at hlen
  unfold withExits
  omega

theorem getD_withExits {rows : List (List Edge)} (h : rows ≠ []) (exits : List Nat) (q : Nat) :
    (withExits rows exits)[q]?.getD [] =
      rows[q]?.getD [] ++ if q + 1 = rows.length then exits.map Edge.epsilonTo else [] := by
  unfold withExits
  rw [getD_fuse h]
  congr 1
  rcases Nat.lt_trichotomy (q + 1) rows.length with hq | hq | hq
  · rw [if_neg (by omega), if_neg (by omega)]
  · simp [hq]
  · obtain ⟨k, hk⟩ : ∃ k, q + 1 - rows.length = k + 1 := ⟨q - rows.length, by omega⟩
    rw [if_pos (by omega), if_neg (by omega), hk]
    simp

/-! ## Edges as a relation -/

theorem mem_map_shift {l : Label} {r offset : Nat} {es : List Edge} :
    ⟨l, r⟩ ∈ es.map (Edge.shift offset) ↔ ∃ s, r = s + offset ∧ ⟨l, s⟩ ∈ es := by
  rw [List.mem_map]
  constructor
  · rintro ⟨⟨l', s⟩, he, h⟩
    obtain ⟨rfl, rfl⟩ : l' = l ∧ s + offset = r := by simpa [Edge.shift] using h
    exact ⟨s, rfl, he⟩
  · rintro ⟨s, rfl, he⟩
    exact ⟨⟨l, s⟩, he, rfl⟩

theorem mem_map_epsilonTo {l : Label} {r : Nat} {exits : List Nat} :
    ⟨l, r⟩ ∈ exits.map Edge.epsilonTo ↔ l = .epsilon ∧ r ∈ exits := by
  rw [List.mem_map]
  constructor
  · rintro ⟨s, hs, h⟩
    obtain ⟨rfl, rfl⟩ : Label.epsilon = l ∧ s = r := by simpa [Edge.epsilonTo] using h
    exact ⟨rfl, hs⟩
  · rintro ⟨rfl, hr⟩
    exact ⟨r, hr, rfl⟩

theorem Step.lt_size {a : Nfa} {q r : Nat} {l : Label} (h : a.Step q l r) : q < a.size := by
  by_cases hq : q < a.size
  · exact hq
  · rw [Step, edgesFrom_of_size_le (Nat.not_lt.mp hq)] at h
    exact absurd h (by simp)

theorem edgesFrom_eq_nil {a : Nfa} {q : Nat} (h : ∀ l r, ¬ a.Step q l r) : a.edgesFrom q = [] :=
  List.eq_nil_iff_forall_not_mem.mpr fun e he => h e.label e.target he

theorem final_alternate (a b : Nfa) : (a.alternate b).final = a.size + b.size + 1 := rfl

theorem final_star (a : Nfa) : a.star.final = a.size + 1 := rfl

theorem final_optional (a : Nfa) : a.optional.final = a.size + 1 := rfl

/-! ## The shape of an automaton that can be built -/

/-- What every constructor relies on and keeps. -/
structure Shaped (a : Nfa) : Prop where
  initial_eq : a.initial = 0
  size_eq : a.size = a.final + 1
  final_pos : 0 < a.final
  final_edges : a.edgesFrom a.final = []
  closed : a.Closed
  mem_alphabet : ∀ c, c ∈ a.alphabet ↔ ∃ q r, a.Step q (.symbol c) r

namespace Shaped

variable {a b : Nfa} (ha : a.Shaped) (hb : b.Shaped)
include ha

theorem rows_ne_nil : a.rows.toList ≠ [] := by
  intro h
  have hlen := a.length_rows
  rw [h, List.length_nil, ha.size_eq] at hlen
  omega

theorem shiftRows_ne_nil (offset : Nat) : shiftRows offset a.rows.toList ≠ [] := by
  simpa [shiftRows] using ha.rows_ne_nil

/-- An edge leaves a state before the final one. -/
theorem lt_final {q r : Nat} {l : Label} (h : a.Step q l r) : q < a.final := by
  have hq := h.lt_size
  rw [ha.size_eq] at hq
  rcases Nat.lt_or_eq_of_le (Nat.le_of_lt_succ hq) with hq | rfl
  · exact hq
  · rw [Step, ha.final_edges] at h
    exact absurd h (by simp)

theorem final_concat : (a.concat b).final = b.final + a.final := by
  have hf : (a.concat b).final = b.final + (a.size - 1) := rfl
  rw [hf, ha.size_eq, Nat.add_sub_cancel]

theorem target_le_final {q r : Nat} {l : Label} (h : a.Step q l r) : r ≤ a.final := by
  have hr := ha.closed q l r h
  rw [ha.size_eq] at hr
  exact Nat.le_of_lt_succ hr

/-! ### Edges of each composition -/

theorem edgesFrom_concat (q : Nat) :
    (a.concat b).edgesFrom q = a.edgesFrom q ++
      if a.final ≤ q then (b.edgesFrom (q - a.final)).map (Edge.shift a.final) else [] := by
  have hsize : a.size - 1 = a.final := by rw [ha.size_eq]; omega
  have hlen : a.rows.toList.length = a.final + 1 := by rw [length_rows, ha.size_eq]
  rw [edgesFrom_eq (a.concat b), edgesFrom_eq a]
  simp only [concat, hsize]
  rw [getD_fuse ha.rows_ne_nil, hlen]
  simp only [Nat.add_le_add_iff_right, Nat.add_sub_add_right, getD_shiftRows, edgesFrom_eq b]

/-- The rows of an operand whose final state has edges to `exits`. -/
theorem getD_operand (offset : Nat) (exits : List Nat) (q : Nat) :
    (withExits (shiftRows offset a.rows.toList) exits)[q]?.getD [] =
      (a.edgesFrom q).map (Edge.shift offset) ++
        if q = a.final then exits.map Edge.epsilonTo else [] := by
  rw [getD_withExits (ha.shiftRows_ne_nil offset), length_shiftRows, getD_shiftRows, length_rows,
    ha.size_eq, ← edgesFrom_eq]
  simp only [Nat.add_right_cancel_iff]

theorem length_operand (offset : Nat) (exits : List Nat) :
    (withExits (shiftRows offset a.rows.toList) exits).length = a.size := by
  rw [length_withExits (ha.shiftRows_ne_nil offset), length_shiftRows, length_rows]

/-- The rows of an operand between an initial and a final state of the composition's own. -/
theorem getD_wrapped (entry : List Edge) (exits : List Nat) (q : Nat) :
    (entry :: (withExits (shiftRows 1 a.rows.toList) exits ++ [[]]))[q]?.getD [] =
      match q with
      | 0 => entry
      | q + 1 => (a.edgesFrom q).map (Edge.shift 1) ++
          if q = a.final then exits.map Edge.epsilonTo else [] := by
  cases q with
  | zero => rfl
  | succ q => rw [List.getElem?_cons_succ, getD_append_emptyRow, ha.getD_operand]

theorem edgesFrom_star (q : Nat) :
    a.star.edgesFrom q =
      match q with
      | 0 => [1, a.size + 1].map Edge.epsilonTo
      | q + 1 => (a.edgesFrom q).map (Edge.shift 1) ++
          if q = a.final then [0, a.size + 1].map Edge.epsilonTo else [] := by
  have h := ha.getD_wrapped ([1, a.size + 1].map Edge.epsilonTo) [0, a.size + 1] q
  rw [edgesFrom_eq a.star]
  simp only [star, ha.initial_eq, Nat.zero_add]
  exact h

theorem edgesFrom_optional (q : Nat) :
    a.optional.edgesFrom q =
      match q with
      | 0 => [1, a.size + 1].map Edge.epsilonTo
      | q + 1 => (a.edgesFrom q).map (Edge.shift 1) ++
          if q = a.final then [a.size + 1].map Edge.epsilonTo else [] := by
  have h := ha.getD_wrapped ([1, a.size + 1].map Edge.epsilonTo) [a.size + 1] q
  rw [edgesFrom_eq a.optional]
  simp only [optional, ha.initial_eq, Nat.zero_add]
  exact h

include hb in
theorem edgesFrom_alternate (q : Nat) :
    (a.alternate b).edgesFrom q =
      match q with
      | 0 => [1, a.size + 1].map Edge.epsilonTo
      | q + 1 =>
        ((a.edgesFrom q).map (Edge.shift 1) ++
          if q = a.final then [a.size + b.size + 1].map Edge.epsilonTo else []) ++
        if a.size ≤ q then
          (b.edgesFrom (q - a.size)).map (Edge.shift (a.size + 1)) ++
            if q - a.size = b.final then [a.size + b.size + 1].map Edge.epsilonTo else []
        else [] := by
  rw [edgesFrom_eq (a.alternate b)]
  simp only [alternate, ha.initial_eq, hb.initial_eq, Nat.zero_add]
  cases q with
  | zero => rfl
  | succ q =>
    rw [List.getElem?_cons_succ, getD_append_emptyRow, getD_append, ha.length_operand,
      ha.getD_operand, hb.getD_operand]

/-! ### Where the rows of an operand are -/

theorem edgesFrom_of_final_le {q : Nat} (hq : a.final ≤ q) : a.edgesFrom q = [] := by
  rcases Nat.eq_or_lt_of_le hq with rfl | hlt
  · exact ha.final_edges
  · exact edgesFrom_of_size_le (by rw [ha.size_eq]; omega)

theorem edgesFrom_concat_first {q : Nat} (hq : q < a.final) :
    (a.concat b).edgesFrom q = a.edgesFrom q := by
  rw [ha.edgesFrom_concat, if_neg (by omega), List.append_nil]

theorem edgesFrom_concat_second (q : Nat) :
    (a.concat b).edgesFrom (q + a.final) = (b.edgesFrom q).map (Edge.shift a.final) := by
  rw [ha.edgesFrom_concat, ha.edgesFrom_of_final_le (by omega), if_pos (by omega),
    Nat.add_sub_cancel, List.nil_append]

include hb in
theorem edgesFrom_alternate_first {q : Nat} (hq : q < a.final) :
    (a.alternate b).edgesFrom (q + 1) = (a.edgesFrom q).map (Edge.shift 1) := by
  have hsize := ha.size_eq
  rw [ha.edgesFrom_alternate hb]
  dsimp only
  rw [if_neg (by omega), if_neg (by omega), List.append_nil, List.append_nil]

include hb in
theorem edgesFrom_alternate_second {q : Nat} (hq : q < b.final) :
    (a.alternate b).edgesFrom (q + (a.size + 1)) =
      (b.edgesFrom q).map (Edge.shift (a.size + 1)) := by
  have hsize := ha.size_eq
  rw [← Nat.add_assoc, ha.edgesFrom_alternate hb]
  dsimp only
  rw [ha.edgesFrom_of_final_le (by omega), if_neg (by omega), if_pos (by omega),
    Nat.add_sub_cancel, if_neg (by omega)]
  simp

include hb in
theorem edgesFrom_alternate_final :
    (a.alternate b).edgesFrom a.size = [.epsilonTo (a.size + b.size + 1)] := by
  have hsize := ha.size_eq
  rw [ha.edgesFrom_alternate hb, hsize]
  dsimp only
  rw [ha.final_edges, if_pos rfl, if_neg (by omega)]
  rfl

include hb in
theorem edgesFrom_alternate_last :
    (a.alternate b).edgesFrom (a.size + b.size) = [.epsilonTo (a.size + b.size + 1)] := by
  have hsize := ha.size_eq
  have hlast : a.size + b.size = a.size + b.final + 1 := by rw [hb.size_eq, Nat.add_assoc]
  rw [ha.edgesFrom_alternate hb, hlast]
  dsimp only
  rw [ha.edgesFrom_of_final_le (by omega), if_neg (by omega), if_pos (by omega),
    Nat.add_sub_cancel_left, hb.final_edges, if_pos rfl]
  rfl

theorem edgesFrom_star_inside {q : Nat} (hq : q < a.final) :
    a.star.edgesFrom (q + 1) = (a.edgesFrom q).map (Edge.shift 1) := by
  rw [ha.edgesFrom_star]
  dsimp only
  rw [if_neg (by omega), List.append_nil]

theorem edgesFrom_star_final :
    a.star.edgesFrom a.size = [.epsilonTo 0, .epsilonTo (a.size + 1)] := by
  rw [ha.edgesFrom_star, ha.size_eq]
  dsimp only
  rw [ha.final_edges, if_pos rfl]
  rfl

theorem edgesFrom_optional_inside {q : Nat} (hq : q < a.final) :
    a.optional.edgesFrom (q + 1) = (a.edgesFrom q).map (Edge.shift 1) := by
  rw [ha.edgesFrom_optional]
  dsimp only
  rw [if_neg (by omega), List.append_nil]

theorem edgesFrom_optional_final : a.optional.edgesFrom a.size = [.epsilonTo (a.size + 1)] := by
  rw [ha.edgesFrom_optional, ha.size_eq]
  dsimp only
  rw [ha.final_edges, if_pos rfl]
  rfl

/-! ### Edges of each composition as a relation -/

theorem step_concat {q r : Nat} {l : Label} :
    (a.concat b).Step q l r ↔
      a.Step q l r ∨ ∃ p s, q = p + a.final ∧ r = s + a.final ∧ b.Step p l s := by
  unfold Step
  rw [ha.edgesFrom_concat, List.mem_append]
  refine or_congr Iff.rfl ?_
  by_cases hq : a.final ≤ q
  · rw [if_pos hq, mem_map_shift]
    constructor
    · rintro ⟨s, rfl, hs⟩
      exact ⟨q - a.final, s, by omega, rfl, hs⟩
    · rintro ⟨p, s, rfl, rfl, hs⟩
      exact ⟨s, rfl, by rwa [Nat.add_sub_cancel]⟩
  · rw [if_neg hq]
    constructor
    · intro h
      exact absurd h (by simp)
    · rintro ⟨p, s, rfl, -, -⟩
      omega

omit ha in
theorem mem_operand {offset q r : Nat} {exits : List Nat} {l : Label} :
    ⟨l, r⟩ ∈ (a.edgesFrom q).map (Edge.shift offset) ++
        (if q = a.final then exits.map Edge.epsilonTo else []) ↔
      (∃ s, r = s + offset ∧ a.Step q l s) ∨ (q = a.final ∧ l = .epsilon ∧ r ∈ exits) := by
  rw [List.mem_append, mem_map_shift]
  refine or_congr Iff.rfl ?_
  by_cases hq : q = a.final
  · rw [if_pos hq, mem_map_epsilonTo]
    exact (and_iff_right hq).symm
  · rw [if_neg hq]
    simp [hq]

omit ha in
/-- An edge of the entry, an edge of the operand or an edge of its final state to an exit. -/
theorem mem_wrapped {entries exits : List Nat} {q r : Nat} {l : Label} :
    ⟨l, r⟩ ∈ (match q with
      | 0 => entries.map Edge.epsilonTo
      | q + 1 => (a.edgesFrom q).map (Edge.shift 1) ++
          if q = a.final then exits.map Edge.epsilonTo else []) ↔
      (q = 0 ∧ l = .epsilon ∧ r ∈ entries) ∨
        (∃ p s, q = p + 1 ∧ r = s + 1 ∧ a.Step p l s) ∨
        (q = a.final + 1 ∧ l = .epsilon ∧ r ∈ exits) := by
  cases q with
  | zero => simp [mem_map_epsilonTo]
  | succ q =>
    dsimp only
    rw [mem_operand]
    simp

theorem step_star {q r : Nat} {l : Label} :
    a.star.Step q l r ↔
      (q = 0 ∧ l = .epsilon ∧ r ∈ [1, a.size + 1]) ∨
        (∃ p s, q = p + 1 ∧ r = s + 1 ∧ a.Step p l s) ∨
        (q = a.final + 1 ∧ l = .epsilon ∧ r ∈ [0, a.size + 1]) := by
  rw [← mem_wrapped, Step, ha.edgesFrom_star]

theorem step_optional {q r : Nat} {l : Label} :
    a.optional.Step q l r ↔
      (q = 0 ∧ l = .epsilon ∧ r ∈ [1, a.size + 1]) ∨
        (∃ p s, q = p + 1 ∧ r = s + 1 ∧ a.Step p l s) ∨
        (q = a.final + 1 ∧ l = .epsilon ∧ r ∈ [a.size + 1]) := by
  rw [← mem_wrapped, Step, ha.edgesFrom_optional]

include hb in
theorem step_alternate {q r : Nat} {l : Label} :
    (a.alternate b).Step q l r ↔
      (q = 0 ∧ l = .epsilon ∧ r ∈ [1, a.size + 1]) ∨
        (∃ p s, q = p + 1 ∧ r = s + 1 ∧ a.Step p l s) ∨
        (∃ p s, q = p + (a.size + 1) ∧ r = s + (a.size + 1) ∧ b.Step p l s) ∨
        ((q = a.final + 1 ∨ q = b.final + (a.size + 1)) ∧ l = .epsilon ∧
          r = a.size + b.size + 1) := by
  have hsa := ha.size_eq
  rw [Step, ha.edgesFrom_alternate hb]
  cases q with
  | zero =>
    dsimp only
    rw [mem_map_epsilonTo]
    simp
  | succ q =>
    dsimp only
    rw [List.mem_append, mem_operand]
    by_cases hq : a.size ≤ q
    · -- a state of the second operand: `a` has no such state
      obtain ⟨p, rfl⟩ : ∃ p, q = p + a.size := ⟨q - a.size, by omega⟩
      have hleft : ∀ s, ¬ a.Step (p + a.size) l s := fun s hs => by
        have := hs.lt_size
        omega
      rw [if_pos hq, Nat.add_sub_cancel, mem_operand]
      constructor
      · rintro ((⟨s, -, hs⟩ | ⟨hf, -⟩) | ⟨s, rfl, hs⟩ | ⟨rfl, hl, hr⟩)
        · exact absurd hs (hleft s)
        · omega
        · exact .inr (.inr (.inl ⟨p, s, by omega, rfl, hs⟩))
        · exact .inr (.inr (.inr ⟨.inr (by omega), hl, by simpa using hr⟩))
      · rintro (⟨h, -⟩ | ⟨p', s, hp, rfl, hs⟩ | ⟨p', s, hp, rfl, hs⟩ | ⟨hf, hl, hr⟩)
        · omega
        · obtain rfl : p' = p + a.size := by omega
          exact absurd hs (hleft s)
        · obtain rfl : p' = p := by omega
          exact .inr (.inl ⟨s, rfl, hs⟩)
        · exact .inr (.inr ⟨by omega, hl, by simpa using hr⟩)
    · rw [if_neg hq]
      constructor
      · rintro ((⟨s, rfl, hs⟩ | ⟨rfl, hl, hr⟩) | h)
        · exact .inr (.inl ⟨q, s, rfl, rfl, hs⟩)
        · exact .inr (.inr (.inr ⟨.inl rfl, hl, by simpa using hr⟩))
        · exact absurd h (by simp)
      · rintro (⟨h, -⟩ | ⟨p, s, hp, rfl, hs⟩ | ⟨p, s, hp, -, -⟩ | ⟨hf, hl, hr⟩)
        · omega
        · obtain rfl : q = p := by omega
          exact .inl (.inl ⟨s, rfl, hs⟩)
        · omega
        · exact .inl (.inr ⟨by omega, hl, by simpa using hr⟩)

/-! ### Sizes -/

include hb in
theorem size_concat : (a.concat b).size = a.final + b.size := by
  have hlower : shiftRows (a.size - 1) b.rows.toList ≠ [] := hb.shiftRows_ne_nil _
  have hlen := length_fuse ha.rows_ne_nil hlower
  rw [length_shiftRows, length_rows, length_rows, ha.size_eq] at hlen
  have hsize : (a.concat b).size =
      (fuse a.rows.toList (shiftRows (a.size - 1) b.rows.toList)).length := List.size_toArray
  rw [hsize, ha.size_eq]
  omega

include hb in
theorem size_alternate : (a.alternate b).size = a.size + b.size + 2 := by
  have hsize : (a.alternate b).size = _ := List.size_toArray
  rw [hsize, List.length_cons, List.length_append, List.length_append, ha.length_operand,
    hb.length_operand, List.length_singleton]

theorem size_star : a.star.size = a.size + 2 := by
  have hsize : a.star.size = _ := List.size_toArray
  rw [hsize, List.length_cons, List.length_append, ha.length_operand, List.length_singleton]

theorem size_optional : a.optional.size = a.size + 2 := by
  have hsize : a.optional.size = _ := List.size_toArray
  rw [hsize, List.length_cons, List.length_append, ha.length_operand, List.length_singleton]

/-! ### The states of each composition -/

include hb in
/-- A state of the first operand, but for its final one, or one of the second. -/
theorem cases_concat {q : Nat} (hq : q < (a.concat b).size) :
    q < a.final ∨ ∃ s < b.size, q = s + a.final := by
  rw [ha.size_concat hb] at hq
  by_cases hqa : q < a.final
  · exact .inl hqa
  · exact .inr ⟨q - a.final, by omega, by omega⟩

omit ha in
/-- One of two states of its own, or a state of the operand between them. -/
theorem cases_wrapped {n q : Nat} (hq : q < n + 2) :
    q = 0 ∨ (∃ s < n, q = s + 1) ∨ q = n + 1 := by
  by_cases hq0 : q = 0
  · exact .inl hq0
  by_cases hqn : q = n + 1
  · exact .inr (.inr hqn)
  · exact .inr (.inl ⟨q - 1, by omega, by omega⟩)

include hb in
/-- One of two states of its own, or a state of either operand. -/
theorem cases_alternate {q : Nat} (hq : q < (a.alternate b).size) :
    q = 0 ∨ (∃ s < a.size, q = s + 1) ∨ (∃ s < b.size, q = s + (a.size + 1)) ∨
      q = a.size + b.size + 1 := by
  rw [ha.size_alternate hb] at hq
  rcases cases_wrapped hq with hq0 | ⟨s, hs, rfl⟩ | hlast
  · exact .inl hq0
  · by_cases hsa : s < a.size
    · exact .inr (.inl ⟨s, hsa, rfl⟩)
    · exact .inr (.inr (.inl ⟨s - a.size, by omega, by omega⟩))
  · exact .inr (.inr (.inr hlast))

/-! ### Every composition is shaped again -/

omit ha in
theorem step_symbol {c : Char} {q r : Nat} {l : Label} :
    (Nfa.symbol c).Step q l r ↔ q = 0 ∧ l = .symbol c ∧ r = 1 := by
  unfold Step
  match q with
  | 0 => simp [edgesFrom, Nfa.symbol]
  | 1 => simp [edgesFrom, Nfa.symbol]
  | q + 2 => simp [edgesFrom, Nfa.symbol]

omit ha in
theorem symbol (c : Char) : (Nfa.symbol c).Shaped where
  initial_eq := rfl
  size_eq := rfl
  final_pos := Nat.one_pos
  final_edges := rfl
  closed := by
    intro q l r h
    rw [(step_symbol.mp h).2.2]
    exact Nat.one_lt_two
  mem_alphabet := by
    intro d
    have hd : d ∈ (Nfa.symbol c).alphabet ↔ d = c := by simp [Nfa.symbol]
    rw [hd]
    simp [step_symbol]

include hb in
theorem concat : (a.concat b).Shaped where
  initial_eq := ha.initial_eq
  size_eq := by
    rw [ha.size_concat hb, ha.final_concat, hb.size_eq]
    omega
  final_pos := Nat.add_pos_left hb.final_pos _
  final_edges := by
    rw [ha.final_concat]
    refine edgesFrom_eq_nil fun l r h => ?_
    rcases ha.step_concat.mp h with hs | ⟨p, s, hq, -, hs⟩
    · have := ha.lt_final hs
      omega
    · have := hb.lt_final hs
      omega
  closed := by
    intro q l r h
    rw [ha.size_concat hb]
    rcases ha.step_concat.mp h with hs | ⟨p, s, -, rfl, hs⟩
    · have := ha.target_le_final hs
      have := hb.size_eq
      omega
    · have := hb.closed _ _ _ hs
      omega
  mem_alphabet := by
    intro c
    simp only [Nfa.concat, SymbolSet.mem_union, ha.mem_alphabet, hb.mem_alphabet]
    constructor
    · rintro (⟨q, r, hs⟩ | ⟨q, r, hs⟩)
      · exact ⟨q, r, ha.step_concat.mpr (.inl hs)⟩
      · exact ⟨_, _, ha.step_concat.mpr (.inr ⟨q, r, rfl, rfl, hs⟩)⟩
    · rintro ⟨q, r, h⟩
      rcases ha.step_concat.mp h with hs | ⟨p, s, -, -, hs⟩
      · exact .inl ⟨q, r, hs⟩
      · exact .inr ⟨p, s, hs⟩

include hb in
theorem alternate : (a.alternate b).Shaped where
  initial_eq := rfl
  size_eq := ha.size_alternate hb
  final_pos := Nat.succ_pos _
  final_edges := by
    have hsa := ha.size_eq
    have hsb := hb.size_eq
    rw [final_alternate]
    refine edgesFrom_eq_nil fun l r h => ?_
    rcases (ha.step_alternate hb).mp h with
      ⟨hq, -⟩ | ⟨p, s, hq, -, hs⟩ | ⟨p, s, hq, -, hs⟩ | ⟨hq, -⟩
    · omega
    · have := hs.lt_size
      omega
    · have := hs.lt_size
      omega
    · omega
  closed := by
    intro q l r h
    rw [ha.size_alternate hb]
    rcases (ha.step_alternate hb).mp h with
      ⟨-, -, hr⟩ | ⟨p, s, -, rfl, hs⟩ | ⟨p, s, -, rfl, hs⟩ | ⟨-, -, rfl⟩
    · have hr : r = 1 ∨ r = a.size + 1 := by simpa using hr
      have := hb.size_eq
      omega
    · have := ha.closed _ _ _ hs
      omega
    · have := hb.closed _ _ _ hs
      omega
    · omega
  mem_alphabet := by
    intro c
    simp only [Nfa.alternate, SymbolSet.mem_union, ha.mem_alphabet, hb.mem_alphabet]
    constructor
    · rintro (⟨q, r, hs⟩ | ⟨q, r, hs⟩)
      · exact ⟨_, _, (ha.step_alternate hb).mpr (.inr (.inl ⟨q, r, rfl, rfl, hs⟩))⟩
      · exact ⟨_, _, (ha.step_alternate hb).mpr (.inr (.inr (.inl ⟨q, r, rfl, rfl, hs⟩)))⟩
    · rintro ⟨q, r, h⟩
      rcases (ha.step_alternate hb).mp h with
        ⟨-, hl, -⟩ | ⟨p, s, -, -, hs⟩ | ⟨p, s, -, -, hs⟩ | ⟨-, hl, -⟩
      · cases hl
      · exact .inl ⟨p, s, hs⟩
      · exact .inr ⟨p, s, hs⟩
      · cases hl

/-- What `star` and `optional` share: the operand lies between two states of their own, and only
the exits of its final state differ. -/
theorem wrapped {c : Nfa} {exits : List Nat} (hinit : c.initial = 0) (hsize : c.size = a.size + 2)
    (hfinal : c.final = a.size + 1) (halphabet : c.alphabet = a.alphabet)
    (hexits : ∀ r ∈ exits, r < c.size)
    (hstep : ∀ q l r, c.Step q l r ↔
      (q = 0 ∧ l = .epsilon ∧ r ∈ [1, a.size + 1]) ∨
        (∃ p s, q = p + 1 ∧ r = s + 1 ∧ a.Step p l s) ∨
        (q = a.final + 1 ∧ l = .epsilon ∧ r ∈ exits)) : c.Shaped where
  initial_eq := hinit
  size_eq := by rw [hsize, hfinal]
  final_pos := by rw [hfinal]; exact Nat.succ_pos _
  final_edges := by
    have hsa := ha.size_eq
    refine edgesFrom_eq_nil fun l r h => ?_
    rcases (hstep _ _ _).mp h with ⟨hq, -⟩ | ⟨p, s, hq, -, hs⟩ | ⟨hq, -⟩
    · omega
    · have := hs.lt_size
      omega
    · omega
  closed := by
    intro q l r h
    rcases (hstep _ _ _).mp h with ⟨-, -, hr⟩ | ⟨p, s, -, rfl, hs⟩ | ⟨-, -, hr⟩
    · have hr : r = 1 ∨ r = a.size + 1 := by simpa using hr
      omega
    · have := ha.closed _ _ _ hs
      omega
    · exact hexits r hr
  mem_alphabet := by
    intro c
    rw [halphabet, ha.mem_alphabet]
    constructor
    · rintro ⟨q, r, hs⟩
      exact ⟨_, _, (hstep _ _ _).mpr (.inr (.inl ⟨q, r, rfl, rfl, hs⟩))⟩
    · rintro ⟨q, r, h⟩
      rcases (hstep _ _ _).mp h with ⟨-, hl, -⟩ | ⟨p, s, -, -, hs⟩ | ⟨-, hl, -⟩
      · cases hl
      · exact ⟨p, s, hs⟩
      · cases hl

theorem star : a.star.Shaped :=
  ha.wrapped rfl ha.size_star rfl rfl (by simp [ha.size_star]) fun _ _ _ => ha.step_star

theorem optional : a.optional.Shaped :=
  ha.wrapped rfl ha.size_optional rfl rfl (by simp [ha.size_optional]) fun _ _ _ =>
    ha.step_optional

end Shaped

theorem Built.shaped {a : Nfa} (h : a.Built) : a.Shaped := by
  induction h with
  | symbol c => exact .symbol c
  | concat _ _ ha hb => exact ha.concat hb
  | alternate _ _ ha hb => exact ha.alternate hb
  | star _ ha => exact ha.star
  | optional _ ha => exact ha.optional

end Nfa
end PatternAutomata
