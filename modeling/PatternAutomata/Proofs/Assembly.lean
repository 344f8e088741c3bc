import Mathlib.Data.Option.Basic
import PatternAutomata.Proofs.ThompsonEdges
/-!
# Automata assembled in steps

A composition gives all rows of its result at once. Here the same automata are assembled in steps:
rows are laid over rows, a state is appended, and edges are added one by one, none of them twice.
The operands are checked first, and so is each state that is to get an edge. Where a check fails,
there is no result.

For automata that can be built no check fails, and the result is the composition: `assembly_concat`
and its like, and `assembly_ofTree` for a whole tree. The steps are compared by the edges they leave
(`edgesFrom_withEpsilons`).
-/
namespace PatternAutomata.Nfa

/-! ## Steps -/

/-- What an operand has to be: state 0 is initial, the last one final, and no edge leaves it. -/
def IsOperand (a : Nfa) : Prop :=
  a.initial = 0 ∧ a.final + 1 = a.size ∧ a.rows[a.final]? = some []

instance (a : Nfa) : Decidable a.IsOperand := inferInstanceAs (Decidable (_ ∧ _))

/-- States without edges, if the initial and the final one are among them. -/
def edgeless (size initial final : Nat) : Option Nfa :=
  if initial < size ∧ final < size then some ⟨initial, final, .replicate size [], .empty⟩ else none

/-- The states move from `q` to `q + offset`, and states without edges take their places. -/
def shifted (a : Nfa) (offset : Nat) : Nfa where
  initial := a.initial + offset
  final := a.final + offset
  rows := (List.replicate offset [] ++ shiftRows offset a.rows.toList).toArray
  alphabet := a.alphabet

/-- Each row of one list followed by the row at the same place in the other. -/
def overlayRows : List (List Edge) → List (List Edge) → List (List Edge)
  | [], lower => lower
  | upper, [] => upper
  | row :: upper, row' :: lower => (row ++ row') :: overlayRows upper lower

/-- The edges of `b` besides those of `a`. -/
def overlay (a b : Nfa) : Nfa where
  initial := a.initial
  final := a.final
  rows := (overlayRows a.rows.toList b.rows.toList).toArray
  alphabet := a.alphabet.union b.alphabet

/-- A state is appended and becomes final, and state 0 becomes initial. -/
def enclosed (a : Nfa) : Nfa where
  initial := 0
  final := a.size
  rows := a.rows.push []
  alphabet := a.alphabet

/-- One more edge from `q`, unless it is there already. -/
def withEdge (a : Nfa) (q : Nat) (e : Edge) : Nfa where
  initial := a.initial
  final := a.final
  rows := a.rows.modify q fun row => if e ∈ row then row else row ++ [e]
  alphabet := match e.label with
    | .epsilon => a.alphabet
    | .symbol c => a.alphabet.insert c

/-- One more edge from `q`, which has to be a state. -/
def addEdge (a : Nfa) (q : Nat) (e : Edge) : Option Nfa :=
  if q < a.size then some (a.withEdge q e) else none

/-- More edges that consume nothing, each from the first to the second of two states. -/
def addEpsilons (a : Nfa) (edges : List (Nat × Nat)) : Option Nfa :=
  edges.foldlM (fun a e => a.addEdge e.1 (.epsilonTo e.2)) a

def withEpsilons (a : Nfa) (edges : List (Nat × Nat)) : Nfa :=
  edges.foldl (fun a e => a.withEdge e.1 (.epsilonTo e.2)) a

namespace Assembly

def symbol (c : Char) : Option Nfa := do
  let a ← edgeless 2 0 1
  a.addEdge 0 ⟨.symbol c, 1⟩

def concat (a b : Nfa) : Option Nfa := do
  guard (a.IsOperand ∧ b.IsOperand)
  let b := b.shifted (a.size - 1)
  guard (b.initial = a.final)
  return { a.overlay b with final := b.final }

def alternate (a b : Nfa) : Option Nfa := do
  guard (a.IsOperand ∧ b.IsOperand)
  let a := a.shifted 1
  let b := b.shifted a.size
  let both := (a.overlay b).enclosed
  both.addEpsilons [(0, a.initial), (0, b.initial), (a.final, both.final), (b.final, both.final)]

def star (a : Nfa) : Option Nfa := do
  guard a.IsOperand
  let a := a.shifted 1
  let whole := a.enclosed
  whole.addEpsilons [(0, a.initial), (a.final, 0), (a.final, whole.final), (0, whole.final)]

def optional (a : Nfa) : Option Nfa := do
  guard a.IsOperand
  let a := a.shifted 1
  let whole := a.enclosed
  whole.addEpsilons [(0, a.initial), (a.final, whole.final), (0, whole.final)]

/-- The automaton of a tree, assembled from the leaves to the root. -/
def ofTree : Tree → Option Nfa
  | .literal c => symbol c
  | .sequence x y => do
    let a ← ofTree x
    let b ← ofTree y
    concat a b
  | .alternative x y => do
    let a ← ofTree x
    let b ← ofTree y
    alternate a b
  | .star x => do
    let a ← ofTree x
    star a
  | .optional x => do
    let a ← ofTree x
    optional a

end Assembly

/-! ## What a step leaves -/

section
variable (a b : Nfa) (q p offset : Nat) (e : Edge)

@[simp] theorem initial_shifted : (a.shifted offset).initial = a.initial + offset := rfl

@[simp] theorem final_shifted : (a.shifted offset).final = a.final + offset := rfl

@[simp] theorem size_shifted : (a.shifted offset).size = a.size + offset := by
  simp [size, shifted, shiftRows, Nat.add_comm]

theorem edgesFrom_shifted :
    (a.shifted offset).edgesFrom q =
      if offset ≤ q then (a.edgesFrom (q - offset)).map (Edge.shift offset) else [] := by
  have hnone : (List.replicate offset ([] : List Edge))[q]?.getD [] = [] := by
    rw [List.getElem?_replicate]
    split <;> rfl
  rw [edgesFrom_eq (a.shifted offset), edgesFrom_eq a]
  simp only [shifted]
  rw [getD_append, hnone, List.nil_append, List.length_replicate, getD_shiftRows]

theorem length_overlayRows (upper lower : List (List Edge)) :
    (overlayRows upper lower).length = max upper.length lower.length := by
  fun_induction overlayRows upper lower with
  | case1 => simp
  | case2 => simp
  | case3 row upper row' lower ih =>
    simp only [List.length_cons, ih]
    omega

theorem getD_overlayRows (upper lower : List (List Edge)) :
    (overlayRows upper lower)[q]?.getD [] = upper[q]?.getD [] ++ lower[q]?.getD [] := by
  fun_induction overlayRows upper lower generalizing q with
  | case1 => simp
  | case2 => simp
  | case3 row upper row' lower ih =>
    cases q with
    | zero => rfl
    | succ q => simpa using ih q

@[simp] theorem size_overlay : (a.overlay b).size = max a.size b.size := by
  simp only [size, overlay, List.size_toArray, length_overlayRows, Array.length_toList]

theorem edgesFrom_overlay : (a.overlay b).edgesFrom q = a.edgesFrom q ++ b.edgesFrom q := by
  simp only [edgesFrom_eq, overlay, getD_overlayRows]

@[simp] theorem final_enclosed : a.enclosed.final = a.size := rfl

@[simp] theorem size_enclosed : a.enclosed.size = a.size + 1 := Array.size_push []

theorem edgesFrom_enclosed : a.enclosed.edgesFrom q = a.edgesFrom q := by
  simp only [edgesFrom_eq, enclosed, Array.toList_push, getD_append_emptyRow]

theorem size_withEdge : (a.withEdge q e).size = a.size := by
  simp [size, withEdge]

theorem edgesFrom_withEdge (h : q < a.size) (he : e ∉ a.edgesFrom q) :
    (a.withEdge q e).edgesFrom p = a.edgesFrom p ++ if q = p then [e] else [] := by
  unfold withEdge edgesFrom at *
  dsimp only
  rw [Array.getElem?_modify]
  by_cases hpq : q = p
  · subst hpq
    rw [if_pos rfl, if_pos rfl]
    rw [Array.getElem?_eq_getElem h, Option.getD_some] at he ⊢
    exact if_neg he
  · rw [if_neg hpq, if_neg hpq, List.append_nil]

end

/-! ## Adding edges one by one -/

section
variable {a : Nfa} {edges : List (Nat × Nat)}

@[simp] theorem withEpsilons_nil : a.withEpsilons [] = a := rfl

@[simp] theorem withEpsilons_cons {e : Nat × Nat} :
    a.withEpsilons (e :: edges) = (a.withEdge e.1 (.epsilonTo e.2)).withEpsilons edges := rfl

theorem initial_withEpsilons : (a.withEpsilons edges).initial = a.initial := by
  induction edges generalizing a with
  | nil => rfl
  | cons e edges ih => exact ih

theorem final_withEpsilons : (a.withEpsilons edges).final = a.final := by
  induction edges generalizing a with
  | nil => rfl
  | cons e edges ih => exact ih

theorem alphabet_withEpsilons : (a.withEpsilons edges).alphabet = a.alphabet := by
  induction edges generalizing a with
  | nil => rfl
  | cons e edges ih => exact ih

theorem size_withEpsilons : (a.withEpsilons edges).size = a.size := by
  induction edges generalizing a with
  | nil => rfl
  | cons e edges ih => rw [withEpsilons_cons, ih, size_withEdge]

theorem addEpsilons_eq (h : ∀ e ∈ edges, e.1 < a.size) :
    a.addEpsilons edges = some (a.withEpsilons edges) := by
  induction edges generalizing a with
  | nil => rfl
  | cons e edges ih =>
    have hadd : a.addEdge e.1 (.epsilonTo e.2) = some (a.withEdge e.1 (.epsilonTo e.2)) :=
      if_pos (h e List.mem_cons_self)
    rw [addEpsilons, List.foldlM_cons, hadd]
    refine ih fun d hd => ?_
    rw [size_withEdge]
    exact h d (List.mem_cons_of_mem _ hd)

/-- No edge is there twice, so each is added behind those that were there. -/
theorem edgesFrom_withEpsilons (h : ∀ e ∈ edges, e.1 < a.size) (hnew : edges.Nodup)
    (hfree : ∀ e ∈ edges, .epsilonTo e.2 ∉ a.edgesFrom e.1) (q : Nat) :
    (a.withEpsilons edges).edgesFrom q =
      a.edgesFrom q ++ (edges.filter (·.1 = q)).map fun e => .epsilonTo e.2 := by
  induction edges generalizing a with
  | nil => simp
  | cons e edges ih =>
    obtain ⟨he, hnew⟩ := List.nodup_cons.mp hnew
    have hedge := fun p => edgesFrom_withEdge a e.1 p (.epsilonTo e.2) (h e List.mem_cons_self)
      (hfree e List.mem_cons_self)
    rw [withEpsilons_cons, ih ?_ hnew ?_, hedge, List.append_assoc, List.filter_cons]
    · by_cases heq : e.1 = q
      · simp [heq]
      · simp [heq]
    · intro d hd
      rw [size_withEdge]
      exact h d (List.mem_cons_of_mem _ hd)
    · intro d hd hmem
      rw [hedge, List.mem_append] at hmem
      rcases hmem with hmem | hmem
      · exact hfree d (List.mem_cons_of_mem _ hd) hmem
      · by_cases heq : e.1 = d.1
        · rw [if_pos heq, List.mem_singleton] at hmem
          have htarget : d.2 = e.2 := congrArg Edge.target hmem
          exact he (Prod.ext heq.symm htarget ▸ hd)
        · rw [if_neg heq] at hmem
          cases hmem

end

/-- Edges that consume nothing, added to states that had none, make `whole` into `c`. -/
theorem addEpsilons_eq_some {whole c : Nfa} {edges : List (Nat × Nat)}
    (hinitial : whole.initial = c.initial) (hfinal : whole.final = c.final)
    (halphabet : whole.alphabet = c.alphabet) (hsize : whole.size = c.size)
    (hfrom : ∀ e ∈ edges, e.1 < whole.size) (hnodup : edges.Nodup)
    (hfree : ∀ e ∈ edges, whole.edgesFrom e.1 = [])
    (hedges : ∀ q, whole.edgesFrom q ++ (edges.filter (·.1 = q)).map (fun e => .epsilonTo e.2) =
      c.edgesFrom q) : whole.addEpsilons edges = some c := by
  have hnew : ∀ e ∈ edges, .epsilonTo e.2 ∉ whole.edgesFrom e.1 := by
    intro e he
    rw [hfree e he]
    exact List.not_mem_nil
  rw [addEpsilons_eq hfrom]
  refine congrArg some (eq_of_edgesFrom ?_ ?_ ?_ ?_ fun q => ?_)
  · rw [initial_withEpsilons, hinitial]
  · rw [final_withEpsilons, hfinal]
  · rw [alphabet_withEpsilons, halphabet]
  · rw [size_withEpsilons, hsize]
  · rw [edgesFrom_withEpsilons hfrom hnodup hnew, hedges]

/-! ## No check fails -/

theorem edgesFrom_enclosed_shifted (a : Nfa) (q : Nat) :
    (a.shifted 1).enclosed.edgesFrom q =
      match q with
      | 0 => []
      | q + 1 => (a.edgesFrom q).map (Edge.shift 1) := by
  rw [edgesFrom_enclosed, edgesFrom_shifted]
  cases q with
  | zero => rfl
  | succ q => simp

theorem edgesFrom_enclosed_overlay (a b : Nfa) (q : Nat) :
    ((a.shifted 1).overlay (b.shifted (a.size + 1))).enclosed.edgesFrom q =
      match q with
      | 0 => []
      | q + 1 => (a.edgesFrom q).map (Edge.shift 1) ++
          if a.size ≤ q then (b.edgesFrom (q - a.size)).map (Edge.shift (a.size + 1)) else [] := by
  rw [edgesFrom_enclosed, edgesFrom_overlay, edgesFrom_shifted, edgesFrom_shifted]
  cases q with
  | zero => rfl
  | succ q => simp

theorem assembly_symbol (c : Char) : Assembly.symbol c = some (Nfa.symbol c) := rfl

namespace Shaped

variable {a b : Nfa} (ha : a.Shaped) (hb : b.Shaped)
include ha

theorem isOperand : a.IsOperand := by
  have hlt : a.final < a.size := by
    rw [ha.size_eq]
    exact Nat.lt_succ_self _
  have hrow := ha.final_edges
  rw [edgesFrom, Array.getElem?_eq_getElem hlt, Option.getD_some] at hrow
  refine ⟨ha.initial_eq, ha.size_eq.symm, ?_⟩
  rw [Array.getElem?_eq_getElem hlt, hrow]

include hb in
theorem assembly_concat : Assembly.concat a b = some (a.concat b) := by
  have hfinal : a.size - 1 = a.final := by rw [ha.size_eq, Nat.add_sub_cancel]
  have hmeet : (b.shifted (a.size - 1)).initial = a.final := by
    simp [shifted, hb.initial_eq, hfinal]
  simp only [Assembly.concat, guard, ha.isOperand, hb.isOperand, hmeet, and_self, if_true]
  refine congrArg some (eq_of_edgesFrom rfl rfl rfl ?_ fun q => ?_)
  · refine (size_overlay _ _).trans ?_
    rw [size_shifted, ha.size_concat hb, hfinal, ha.size_eq, hb.size_eq]
    omega
  · refine (edgesFrom_overlay _ _ q).trans ?_
    rw [edgesFrom_shifted, ha.edgesFrom_concat, hfinal]

include hb in
theorem assembly_alternate : Assembly.alternate a b = some (a.alternate b) := by
  have hsa := ha.size_eq
  have hsb := hb.size_eq
  have hlength : ((a.shifted 1).overlay (b.shifted (a.size + 1))).size = a.size + b.size + 1 := by
    rw [size_overlay, size_shifted, size_shifted]
    omega
  simp only [Assembly.alternate, guard, ha.isOperand, hb.isOperand, and_self, if_true,
    initial_shifted, final_shifted, ha.initial_eq, hb.initial_eq, final_enclosed, size_shifted,
    hlength]
  refine addEpsilons_eq_some rfl hlength rfl ?_ ?_ ?_ ?_ fun q => ?_
  · rw [size_enclosed, hlength, ha.size_alternate hb]
  · simp only [size_enclosed, hlength, List.forall_mem_cons, List.not_mem_nil, false_imp_iff,
      implies_true, and_true]
    omega
  · have hne : a.final + 1 ≠ b.final + (a.size + 1) := by omega
    have hpos : a.size ≠ 0 := by omega
    simp [hne, hpos]
  · have hfirst : ¬ a.size ≤ a.final := by omega
    have hbeyond : a.edgesFrom (b.final + a.size) = [] := edgesFrom_of_size_le (by omega)
    simp [edgesFrom_enclosed_overlay, ← Nat.add_assoc, ha.final_edges, hb.final_edges, hfirst,
      hbeyond]
  · rw [edgesFrom_enclosed_overlay, ha.edgesFrom_alternate hb]
    cases q with
    | zero => simp
    | succ q =>
      -- the new edges from `q + 1` are those of the one or the other operand's final state
      have hnew : a.final + 1 = q + 1 ↔ q = a.final := by omega
      have hnew' : b.final + (a.size + 1) = q + 1 ↔ a.size ≤ q ∧ q - a.size = b.final := by omega
      simp only [List.filter_cons, List.filter_nil, hnew, hnew', decide_eq_true_eq,
        (Nat.succ_ne_zero q).symm, if_false]
      by_cases hq : a.size ≤ q
      · have hne : q ≠ a.final := by omega
        by_cases hlast : q - a.size = b.final <;> simp [hq, hne, hlast]
      · simp only [hq, false_and, if_false, List.append_nil]
        by_cases hlast : q = a.final <;> simp [hlast]

/-- What `star` and `optional` share: new edges leave only state 0 and the operand's final state. -/
theorem addEpsilons_wrapped {c : Nfa} {edges : List (Nat × Nat)} {entries exits : List Nat}
    (hinitial : c.initial = 0) (hfinal : c.final = a.size + 1) (halphabet : c.alphabet = a.alphabet)
    (hsize : c.size = a.size + 2)
    (hedges : ∀ q, c.edgesFrom q = match q with
      | 0 => entries.map Edge.epsilonTo
      | q + 1 => (a.edgesFrom q).map (Edge.shift 1) ++
          if q = a.final then exits.map Edge.epsilonTo else [])
    (hnodup : edges.Nodup) (hfrom : ∀ e ∈ edges, e.1 = 0 ∨ e.1 = a.final + 1)
    (hentries : (edges.filter (·.1 = 0)).map Prod.snd = entries)
    (hexits : (edges.filter (·.1 = a.final + 1)).map Prod.snd = exits) :
    (a.shifted 1).enclosed.addEpsilons edges = some c := by
  have hsa := ha.size_eq
  refine addEpsilons_eq_some hinitial.symm ?_ halphabet.symm ?_ ?_ hnodup ?_ fun q => ?_
  · rw [hfinal, final_enclosed, size_shifted]
  · rw [size_enclosed, size_shifted, hsize]
  · intro e he
    rw [size_enclosed, size_shifted]
    rcases hfrom e he with h | h <;> omega
  · intro e he
    rcases hfrom e he with h | h <;> simp [h, edgesFrom_enclosed_shifted, ha.final_edges]
  · rw [edgesFrom_enclosed_shifted, hedges]
    cases q with
    | zero => simp [← hentries]
    | succ q =>
      by_cases hq : q = a.final
      · simp [hq, ← hexits]
      · have hnone : edges.filter (·.1 = q + 1) = [] := by
          refine List.filter_eq_nil_iff.mpr fun e he => ?_
          rcases hfrom e he with h | h <;> simp [h, Ne.symm hq]
        simp [hq, hnone]

theorem assembly_star : Assembly.star a = some a.star := by
  have hsize := ha.size_eq
  simp only [Assembly.star, guard, ha.isOperand, if_true, initial_shifted, final_shifted,
    ha.initial_eq, final_enclosed, size_shifted]
  refine ha.addEpsilons_wrapped (c := a.star) rfl rfl rfl ha.size_star ha.edgesFrom_star ?_ ?_ ?_ ?_
  · simp [hsize]
  · simp
  · simp
  · simp

theorem assembly_optional : Assembly.optional a = some a.optional := by
  have hsize := ha.size_eq
  simp only [Assembly.optional, guard, ha.isOperand, if_true, initial_shifted, final_shifted,
    ha.initial_eq, final_enclosed, size_shifted]
  refine ha.addEpsilons_wrapped (c := a.optional) rfl rfl rfl ha.size_optional
    ha.edgesFrom_optional ?_ ?_ ?_ ?_
  · simp [hsize]
  · simp
  · simp
  · simp

end Shaped

/-- **The automaton of a tree can be assembled in steps**: no check fails on the way. -/
theorem assembly_ofTree (t : Tree) : Assembly.ofTree t = some (ofTree t) := by
  induction t with
  | literal c => exact assembly_symbol c
  | sequence x y hx hy =>
    rw [Assembly.ofTree, hx, hy]
    exact (built_ofTree x).shaped.assembly_concat (built_ofTree y).shaped
  | alternative x y hx hy =>
    rw [Assembly.ofTree, hx, hy]
    exact (built_ofTree x).shaped.assembly_alternate (built_ofTree y).shaped
  | star x hx =>
    rw [Assembly.ofTree, hx]
    exact (built_ofTree x).shaped.assembly_star
  | optional x hx =>
    rw [Assembly.ofTree, hx]
    exact (built_ofTree x).shaped.assembly_optional

end PatternAutomata.Nfa
