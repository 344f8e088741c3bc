import Mathlib.Data.List.Basic
import PatternAutomata.Proofs.Reassociation
import PatternAutomata.Proofs.ThompsonEdges
/-!
# The automaton of a tree tells the tree

Concatenation is associative on automata (`concat_assoc`), so trees that differ in the association
of sequences have one automaton. Nothing else is lost (`ofTree_eq_iff`): the edges of the initial
state, and those of the state before the one that the second of them leads to, tell which operator
is at the beginning and where its automaton ends (`opening`), and every composition gives its
operands back (`concat_inj` and the like).
-/
namespace PatternAutomata

theorem Edge.shift_injective (offset : Nat) : Function.Injective (Edge.shift offset) := by
  rintro ⟨l, q⟩ ⟨l', q'⟩ h
  simpa [Edge.shift] using h

theorem map_shift_inj {offset : Nat} {es es' : List Edge} :
    es.map (Edge.shift offset) = es'.map (Edge.shift offset) ↔ es = es' :=
  (List.map_injective_iff.mpr (Edge.shift_injective offset)).eq_iff

theorem map_shift_shift {k n : Nat} {es : List Edge} :
    (es.map (Edge.shift k)).map (Edge.shift n) = es.map (Edge.shift (k + n)) := by
  simp [Edge.shift, Function.comp_def, Nat.add_assoc]

namespace Nfa

namespace Shaped

variable {a b c a' b' : Nfa} (ha : a.Shaped) (hb : b.Shaped) (hc : c.Shaped)
  (ha' : a'.Shaped) (hb' : b'.Shaped) {q : Nat}
include ha

include ha' in
theorem final_eq_of_size_eq (h : a.size = a'.size) : a.final = a'.final := by
  rw [ha.size_eq, ha'.size_eq] at h
  omega

include ha' in
/-- An automaton is known by its size and its edges. -/
theorem ext_edges (hsize : a.size = a'.size)
    (hedges : ∀ q < a.final, a.edgesFrom q = a'.edgesFrom q) : a = a' := by
  have hfinal := ha.final_eq_of_size_eq ha' hsize
  have hall : ∀ q, a.edgesFrom q = a'.edgesFrom q := by
    intro q
    by_cases hq : q < a.final
    · exact hedges q hq
    · rw [ha.edgesFrom_of_final_le (by omega), ha'.edgesFrom_of_final_le (by omega)]
  have halphabet : a.alphabet = a'.alphabet := by
    ext d
    simp only [ha.mem_alphabet, ha'.mem_alphabet, Step, hall]
  have hinitial : a.initial = a'.initial := by rw [ha.initial_eq, ha'.initial_eq]
  exact eq_of_edgesFrom hinitial hfinal halphabet hsize hall

include ha' in
/-- An operand is known by its size and by its rows in a composition. -/
theorem ext_shifted {offset : Nat} (hsize : a.size = a'.size)
    (hrows : ∀ q < a.final, c.edgesFrom (q + offset) = (a.edgesFrom q).map (Edge.shift offset))
    (hrows' : ∀ q < a'.final, c.edgesFrom (q + offset) = (a'.edgesFrom q).map (Edge.shift offset)) :
    a = a' := by
  have hfinal := ha.final_eq_of_size_eq ha' hsize
  refine ha.ext_edges ha' hsize fun q hq => ?_
  have hrow := hrows' q (by omega)
  rwa [hrows q hq, map_shift_inj] at hrow

/-! ## Concatenation -/

include hb hc in
theorem concat_assoc : (a.concat b).concat c = a.concat (b.concat c) := by
  have hab := ha.concat hb
  have hbc := hb.concat hc
  refine (hab.concat hc).ext_edges (ha.concat hbc) ?_ fun q _ => ?_
  · rw [hab.size_concat hc, ha.size_concat hbc, hb.size_concat hc, ha.final_concat]
    omega
  · rw [hab.edgesFrom_concat, ha.edgesFrom_concat, ha.edgesFrom_concat, hb.edgesFrom_concat,
      ha.final_concat, List.append_assoc]
    congr 1
    by_cases hq : a.final ≤ q
    · by_cases hq' : b.final ≤ q - a.final
      · have hle : b.final + a.final ≤ q := by omega
        have hsub : q - (b.final + a.final) = q - a.final - b.final := by omega
        simp only [hq, hq', hle, hsub, if_true, List.map_append, map_shift_shift]
      · have hlt : ¬ b.final + a.final ≤ q := by omega
        simp [hq, hq', hlt]
    · have hlt : ¬ b.final + a.final ≤ q := by omega
      simp [hq, hlt]

include hb ha' hb' in
/-- The state in which two automata were joined tells them apart. -/
theorem concat_inj (hfinal : a.final = a'.final) (h : a.concat b = a'.concat b') :
    a = a' ∧ b = b' := by
  have hsize : a.size = a'.size := by rw [ha.size_eq, ha'.size_eq, hfinal]
  have hsize' : b.size = b'.size := by
    have hboth : (a.concat b).size = (a'.concat b').size := by rw [h]
    rw [ha.size_concat hb, ha'.size_concat hb'] at hboth
    omega
  constructor
  · refine ha.ext_edges ha' hsize fun q hq => ?_
    rw [← ha.edgesFrom_concat_first hq, h, ha'.edgesFrom_concat_first (by omega)]
  · refine hb.ext_shifted hb' hsize' (fun q _ => ha.edgesFrom_concat_second q) fun q _ => ?_
    rw [h, hfinal]
    exact ha'.edgesFrom_concat_second q

/-! ## Alternatives -/

include hb ha' hb' in
theorem alternate_inj (hsize : a.size = a'.size) (h : a.alternate b = a'.alternate b') :
    a = a' ∧ b = b' := by
  have hsize' : b.size = b'.size := by
    have hboth : (a.alternate b).size = (a'.alternate b').size := by rw [h]
    rw [ha.size_alternate hb, ha'.size_alternate hb'] at hboth
    omega
  constructor
  · refine ha.ext_shifted ha' hsize (fun q hq => ha.edgesFrom_alternate_first hb hq) fun q hq => ?_
    rw [h]
    exact ha'.edgesFrom_alternate_first hb' hq
  · refine hb.ext_shifted hb' hsize' (fun q hq => ha.edgesFrom_alternate_second hb hq) ?_
    intro q hq
    rw [h, hsize]
    exact ha'.edgesFrom_alternate_second hb' hq

/-! ## Quantifiers -/

include ha' in
theorem star_inj (h : a.star = a'.star) : a = a' := by
  have hsize : a.size = a'.size := by
    have hboth : a.star.size = a'.star.size := by rw [h]
    rw [ha.size_star, ha'.size_star] at hboth
    omega
  refine ha.ext_shifted ha' hsize (fun q hq => ha.edgesFrom_star_inside hq) fun q hq => ?_
  rw [h]
  exact ha'.edgesFrom_star_inside hq

include ha' in
theorem optional_inj (h : a.optional = a'.optional) : a = a' := by
  have hsize : a.size = a'.size := by
    have hboth : a.optional.size = a'.optional.size := by rw [h]
    rw [ha.size_optional, ha'.size_optional] at hboth
    omega
  refine ha.ext_shifted ha' hsize (fun q hq => ha.edgesFrom_optional_inside hq) fun q hq => ?_
  rw [h]
  exact ha'.edgesFrom_optional_inside hq

end Shaped

/-! ## The beginning of an automaton -/

/-- The edges of the initial state, and the edges of the state before the one that the second of
them leads to. -/
def opening (a : Nfa) : List Edge × List Edge :=
  (a.edgesFrom 0,
    match (a.edgesFrom 0)[1]? with
    | none => []
    | some e => a.edgesFrom (e.target - 1))

theorem opening_of_edgesFrom {a : Nfa} {e : Edge} {q : Nat}
    (h : a.edgesFrom 0 = [e, .epsilonTo (q + 1)]) :
    a.opening = ([e, .epsilonTo (q + 1)], a.edgesFrom q) := by
  simp [opening, h, Edge.epsilonTo]

/-- What follows an automaton does not change how it begins. -/
theorem Shaped.opening_concat {a b : Nfa} (ha : a.Shaped) : (a.concat b).opening = a.opening := by
  unfold opening
  rw [ha.edgesFrom_concat_first ha.final_pos]
  cases h : (a.edgesFrom 0)[1]? with
  | none => rfl
  | some e =>
    have hle : e.target ≤ a.final := ha.target_le_final (l := e.label) (List.mem_of_getElem? h)
    have hpos := ha.final_pos
    dsimp only
    rw [ha.edgesFrom_concat_first (by omega)]

end Nfa

namespace Tree

open Nfa

/-- How the automaton of a tree begins. -/
def opening : Tree → List Edge × List Edge
  | literal c => ([⟨.symbol c, 1⟩], [])
  | sequence x _ => x.opening
  | alternative x y =>
    ([.epsilonTo 1, .epsilonTo ((ofTree x).size + 1)],
      [.epsilonTo ((ofTree x).size + (ofTree y).size + 1)])
  | star x =>
    ([.epsilonTo 1, .epsilonTo ((ofTree x).size + 1)],
      [.epsilonTo 0, .epsilonTo ((ofTree x).size + 1)])
  | optional x =>
    ([.epsilonTo 1, .epsilonTo ((ofTree x).size + 1)], [.epsilonTo ((ofTree x).size + 1)])

variable {t u x y : Tree}

theorem shaped_ofTree (t : Tree) : (ofTree t).Shaped := (built_ofTree t).shaped

theorem opening_ofTree (t : Tree) : (ofTree t).opening = t.opening := by
  induction t with
  | literal c => rfl
  | sequence x y hx _ => rw [ofTree, (shaped_ofTree x).opening_concat, hx, opening]
  | alternative x y _ _ =>
    have hx := shaped_ofTree x
    have hy := shaped_ofTree y
    rw [ofTree, opening_of_edgesFrom (hx.edgesFrom_alternate hy 0),
      hx.edgesFrom_alternate_final hy]
    rfl
  | star x _ =>
    have hx := shaped_ofTree x
    rw [ofTree, opening_of_edgesFrom (hx.edgesFrom_star 0), hx.edgesFrom_star_final]
    rfl
  | optional x _ =>
    have hx := shaped_ofTree x
    rw [ofTree, opening_of_edgesFrom (hx.edgesFrom_optional 0), hx.edgesFrom_optional_final]
    rfl

theorem opening_eq (h : ofTree t = ofTree u) : t.opening = u.opening := by
  rw [← opening_ofTree, ← opening_ofTree, h]

/-- If a tree is no sequence, the last edge of its opening leads to its final state. -/
theorem final_ofTree (h : t.isSequence = false) :
    (ofTree t).final = (t.opening.2.getLast?.map Edge.target).getD 1 := by
  cases t with
  | sequence x y => cases h
  | literal c => rfl
  | alternative x y | star x | optional x => rfl

theorem final_eq_of_opening_eq (ht : t.isSequence = false) (hu : u.isSequence = false)
    (h : t.opening = u.opening) : (ofTree t).final = (ofTree u).final := by
  rw [final_ofTree ht, final_ofTree hu, h]

/-- A tree that is no sequence is told from a sequence by its size: the sequence goes on where the
other ends. -/
theorem ofTree_ne_sequence (ht : t.isSequence = false) (hx : x.isSequence = false) :
    ofTree t ≠ ofTree (.sequence x y) := by
  intro h
  have hfinal : (ofTree t).final = (ofTree y).final + (ofTree x).final := by
    rw [h, ofTree, (shaped_ofTree x).final_concat]
  have hopening : t.opening = (sequence x y).opening := opening_eq h
  have hsame := final_eq_of_opening_eq ht hx hopening
  have hpos := (shaped_ofTree y).final_pos
  omega

/-- **Trees nested to the right are told by their automata.** -/
theorem eq_of_ofTree_eq (ht : t.RightNested) (hu : u.RightNested) (h : ofTree t = ofTree u) :
    t = u := by
  -- both begin alike, so they have the same operator at the beginning and operands of the same size
  induction t generalizing u with
  | literal c =>
    have hopening := opening_eq h
    cases u with
    | literal d =>
      have hcd : c = d := by simpa [opening] using hopening
      rw [hcd]
    | sequence x' y' => exact absurd h (ofTree_ne_sequence rfl hu.1)
    | _ => simp [opening] at hopening
  | sequence x y ihx ihy =>
    have hopening := opening_eq h
    cases u with
    | sequence x' y' =>
      obtain ⟨hx, hy⟩ := (shaped_ofTree x).concat_inj (shaped_ofTree y) (shaped_ofTree x')
        (shaped_ofTree y') (final_eq_of_opening_eq ht.1 hu.1 hopening) h
      rw [ihx ht.2.1 hu.2.1 hx, ihy ht.2.2 hu.2.2 hy]
    | _ => exact absurd h.symm (ofTree_ne_sequence rfl ht.1)
  | alternative x y ihx ihy =>
    have hopening := opening_eq h
    cases u with
    | alternative x' y' =>
      have hsize : (ofTree x).size = (ofTree x').size := by
        simpa [opening, Edge.epsilonTo] using congrArg Prod.fst hopening
      obtain ⟨hx, hy⟩ := (shaped_ofTree x).alternate_inj (shaped_ofTree y) (shaped_ofTree x')
        (shaped_ofTree y') hsize h
      rw [ihx ht.1 hu.1 hx, ihy ht.2 hu.2 hy]
    | sequence x' y' => exact absurd h (ofTree_ne_sequence rfl hu.1)
    | optional x' =>
      -- the end of the first operand leads further than in an optional part
      have hy := (shaped_ofTree y).size_eq
      simp [opening, Edge.epsilonTo] at hopening
      omega
    | _ => simp [opening] at hopening
  | star x ihx =>
    have hopening := opening_eq h
    cases u with
    | star x' =>
      have hx : x = x' := ihx ht hu ((shaped_ofTree x).star_inj (shaped_ofTree x') h)
      rw [hx]
    | sequence x' y' => exact absurd h (ofTree_ne_sequence rfl hu.1)
    | _ => simp [opening] at hopening
  | optional x ihx =>
    have hopening := opening_eq h
    cases u with
    | optional x' =>
      have hx : x = x' := ihx ht hu ((shaped_ofTree x).optional_inj (shaped_ofTree x') h)
      rw [hx]
    | sequence x' y' => exact absurd h (ofTree_ne_sequence rfl hu.1)
    | alternative x' y' =>
      have hy := (shaped_ofTree y').size_eq
      simp [opening, Edge.epsilonTo] at hopening
      omega
    | _ => simp [opening] at hopening

/-! ## What an automaton tells -/

theorem ofTree_followedBy (t u : Tree) :
    ofTree (t.followedBy u) = (ofTree t).concat (ofTree u) := by
  induction t with
  | sequence x y _ ih =>
    rw [followedBy, ofTree, ih, ofTree,
      (shaped_ofTree x).concat_assoc (shaped_ofTree y) (shaped_ofTree u)]
  | _ => rfl

/-- Nesting sequences to the right leaves the automaton as it is. -/
theorem ofTree_rightNest (t : Tree) : ofTree t.rightNest = ofTree t := by
  induction t with
  | literal c => rfl
  | sequence x y hx hy => rw [rightNest, ofTree_followedBy, hx, hy, ofTree]
  | alternative x y hx hy => rw [rightNest, ofTree, hx, hy, ofTree]
  | star x hx => rw [rightNest, ofTree, hx, ofTree]
  | optional x hx => rw [rightNest, ofTree, hx, ofTree]

theorem ofTree_eq_iff : ofTree t = ofTree u ↔ t.rightNest = u.rightNest := by
  constructor
  · intro h
    refine eq_of_ofTree_eq (rightNested_rightNest t) (rightNested_rightNest u) ?_
    rw [ofTree_rightNest, ofTree_rightNest, h]
  · intro h
    rw [← ofTree_rightNest, h, ofTree_rightNest]

end Tree

/-- **The automaton tells the tree up to the association of sequences, and nothing else is lost.**
Re-association ends with one tree, and trees have one automaton exactly if it ends with the same
tree for both. Concatenation is associative for whatever was built. -/
theorem Nfa.ofTree_determines :
    (WellFounded fun u t => Tree.Reassociates t u) ∧
    (∀ t : Tree, ∃! t', t.Exhausted t') ∧
    (∀ t u t' u' : Tree, t.Exhausted t' → u.Exhausted u' →
      (Nfa.ofTree t = Nfa.ofTree u ↔ t' = u')) ∧
    ∀ a b c : Nfa, a.Built → b.Built → c.Built →
      (a.concat b).concat c = a.concat (b.concat c) := by
  refine ⟨Tree.wellFounded_reassociates, ?_, ?_, ?_⟩
  · intro t
    exact ⟨t.rightNest, Tree.exhausted_iff.mpr rfl, fun u hu => Tree.exhausted_iff.mp hu⟩
  · intro t u t' u' ht hu
    rw [Tree.exhausted_iff.mp ht, Tree.exhausted_iff.mp hu, Tree.ofTree_eq_iff]
  · intro a b c ha hb hc
    exact ha.shaped.concat_assoc hb.shaped hc.shaped

/-- Three literals in a row have one automaton however they are grouped, and a choice tells the
order of its branches. -/
theorem Nfa.ofTree_determines_grouping :
    Nfa.ofTree (.sequence (.sequence (.literal 'a') (.literal 'b')) (.literal 'c')) =
        Nfa.ofTree (.sequence (.literal 'a') (.sequence (.literal 'b') (.literal 'c'))) ∧
      Nfa.ofTree (.alternative (.literal 'a') (.literal 'b')) ≠
        Nfa.ofTree (.alternative (.literal 'b') (.literal 'a')) ∧
      ((Nfa.symbol 'a').concat (.symbol 'b')).concat (.symbol 'c') =
        (Nfa.symbol 'a').concat ((Nfa.symbol 'b').concat (.symbol 'c')) := by
  obtain ⟨-, -, htells, hassoc⟩ := Nfa.ofTree_determines
  have hleft : Tree.Exhausted
      (.sequence (.sequence (.literal 'a') (.literal 'b')) (.literal 'c'))
      (.sequence (.literal 'a') (.sequence (.literal 'b') (.literal 'c'))) :=
    Tree.exhausted_iff.mpr rfl
  have hright : Tree.Exhausted
      (.sequence (.literal 'a') (.sequence (.literal 'b') (.literal 'c')))
      (.sequence (.literal 'a') (.sequence (.literal 'b') (.literal 'c'))) :=
    Tree.exhausted_iff.mpr rfl
  have hab : Tree.Exhausted (.alternative (.literal 'a') (.literal 'b'))
      (.alternative (.literal 'a') (.literal 'b')) := Tree.exhausted_iff.mpr rfl
  have hba : Tree.Exhausted (.alternative (.literal 'b') (.literal 'a'))
      (.alternative (.literal 'b') (.literal 'a')) := Tree.exhausted_iff.mpr rfl
  refine ⟨(htells _ _ _ _ hleft hright).mpr rfl, ?_, ?_⟩
  · exact mt (htells _ _ _ _ hab hba).mp (by decide)
  · exact hassoc _ _ _ (.symbol 'a') (.symbol 'b') (.symbol 'c')

end PatternAutomata
