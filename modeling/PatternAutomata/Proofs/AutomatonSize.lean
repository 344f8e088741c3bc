import Mathlib.Data.List.Nodup
import PatternAutomata.Proofs.ConstructionInvariant
import PatternAutomata.Proofs.ParseGrammar
/-!
# The size of an automaton

A pattern without its parentheses is the tree written out (`Tree.spelling`): no literal and no
operator is lost, added or moved. What a constructor adds to the states and to the edges of its
operands does not depend on them, so both numbers can be read off the pattern (`parse_size`).
-/
namespace PatternAutomata

/-! ## Trees written out -/

def isParenthesis (c : Char) : Bool := c = '(' || c = ')'

/-- The literals and operators of a tree as a pattern has them. -/
def Tree.spelling : Tree → List Char
  | literal c => [c]
  | sequence x y => x.spelling ++ y.spelling
  | alternative x y => x.spelling ++ '|' :: y.spelling
  | star x => x.spelling ++ ['*']
  | optional x => x.spelling ++ ['?']

variable {s : List Char} {t : Tree} {c d : Char}

theorem isParenthesis_of_isLiteralChar (hc : isLiteralChar c = true) : isParenthesis c = false := by
  have hopen : c ≠ '(' := ne_of_isLiteralChar hc rfl
  have hclose : c ≠ ')' := ne_of_isLiteralChar hc rfl
  simp [isParenthesis, hopen, hclose]

/-- **Parentheses are all that a tree has lost.** -/
theorem Derives.spelling_eq {rule : Rule} (h : Derives rule s t) :
    t.spelling = s.filter fun c => !isParenthesis c := by
  induction h with
  | oneBranch _ ih | oneItem _ ih | plain _ ih => exact ih
  | branch _ _ ihs ihr =>
    rw [Tree.spelling, ihs, ihr, List.filter_append, List.filter_cons_of_pos (by decide)]
  | item _ _ ihs ihr => rw [Tree.spelling, ihs, ihr, List.filter_append]
  | star _ ih =>
    rw [Tree.spelling, ih, List.filter_append]
    rfl
  | optional _ ih =>
    rw [Tree.spelling, ih, List.filter_append]
    rfl
  | literal hc => simp [Tree.spelling, isParenthesis_of_isLiteralChar hc]
  | group _ ih =>
    have hclose : ([')'].filter fun c => !isParenthesis c) = [] := rfl
    rw [List.cons_append, List.filter_cons_of_neg (by decide), List.filter_append, hclose,
      List.append_nil, ih]

theorem count_spelling_of_parse (h : parse s = .ok t) (hc : isParenthesis c = false) :
    t.spelling.count c = s.count c := by
  rw [(derives_of_parse h).spelling_eq]
  exact List.count_filter (by simp [hc])

theorem count_literal (hc : isLiteralChar c = true) (hd : isLiteralChar d = false) :
    [c].count d = 0 := by
  refine List.count_eq_zero.mpr fun hmem => ?_
  rw [List.mem_singleton.mp hmem, hc] at hd
  cases hd

namespace Nfa

variable {a : Nfa}

/-! ## Edges -/

/-- All edges, each with the state that it leaves. -/
def edges (a : Nfa) : List (Nat × Edge) :=
  (List.range a.size).flatMap fun q => (a.edgesFrom q).map fun e => (q, e)

theorem nodup_edges (h : ∀ q, (a.edgesFrom q).Nodup) : a.edges.Nodup := by
  refine List.nodup_flatMap.mpr ⟨fun q _ => (h q).map fun e d hed => (Prod.mk.inj hed).2, ?_⟩
  refine List.nodup_range.imp fun {p q} hpq => ?_
  intro x hp hq
  obtain ⟨e, -, rfl⟩ := List.mem_map.mp hp
  obtain ⟨d, -, hd⟩ := List.mem_map.mp hq
  exact hpq (Prod.mk.inj hd).1.symm

theorem rows_eq_map_edgesFrom (a : Nfa) :
    a.rows.toList = (List.range a.size).map a.edgesFrom := by
  refine List.ext_getElem (by simp [size]) fun q hq _ => ?_
  rw [Array.length_toList] at hq
  simp [edgesFrom, hq]

theorem length_edges (a : Nfa) : a.edges.length = a.rows.toList.flatten.length := by
  rw [rows_eq_map_edgesFrom]
  simp [edges, List.length_flatMap, List.length_flatten, Function.comp_def]

/-! ## What rows hold together -/

theorem flatten_fuse (upper lower : List (List Edge)) :
    (fuse upper lower).flatten = upper.flatten ++ lower.flatten := by
  fun_induction fuse upper lower with
  | case1 lower => rfl
  | case2 row => simp
  | case3 row first lower => simp
  | case4 lower row next upper ih => simp [ih]

theorem length_flatten_shiftRows (offset : Nat) (rows : List (List Edge)) :
    (shiftRows offset rows).flatten.length = rows.flatten.length := by
  simp [shiftRows, List.length_flatten, Function.comp_def]

theorem length_flatten_withExits (rows : List (List Edge)) (exits : List Nat) :
    (withExits rows exits).flatten.length = rows.flatten.length + exits.length := by
  simp [withExits, flatten_fuse]

/-- The operand's edges are counted as they are, wherever its states are. -/
theorem length_flatten_operand (a : Nfa) (offset : Nat) (exits : List Nat) :
    (withExits (shiftRows offset a.rows.toList) exits).flatten.length =
      a.edges.length + exits.length := by
  rw [length_flatten_withExits, length_flatten_shiftRows, length_edges]

/-- The last state of a composition has no edges of its own. -/
theorem length_flatten_wrapped (entry : List Edge) (rows : List (List Edge)) :
    (entry :: (rows ++ [[]])).flatten.length = entry.length + rows.flatten.length := by
  rw [List.flatten_cons, List.flatten_append, List.length_append]
  simp only [List.flatten_cons, List.flatten_nil, List.append_nil]

theorem length_edges_symbol (c : Char) : (symbol c).edges.length = 1 := rfl

theorem length_edges_concat (a b : Nfa) :
    (a.concat b).edges.length = a.edges.length + b.edges.length := by
  simp only [length_edges, concat, flatten_fuse, List.length_append, length_flatten_shiftRows]

theorem length_edges_alternate (a b : Nfa) :
    (a.alternate b).edges.length = a.edges.length + b.edges.length + 4 := by
  rw [length_edges (a.alternate b)]
  simp only [alternate]
  rw [length_flatten_wrapped, List.flatten_append, List.length_append, length_flatten_operand,
    length_flatten_operand]
  simp only [List.length_cons, List.length_nil]
  omega

theorem length_edges_star (a : Nfa) : a.star.edges.length = a.edges.length + 4 := by
  rw [length_edges a.star]
  simp only [star]
  rw [length_flatten_wrapped, length_flatten_operand]
  exact Nat.add_left_comm 2 _ 2

theorem length_edges_optional (a : Nfa) : a.optional.edges.length = a.edges.length + 3 := by
  rw [length_edges a.optional]
  simp only [optional]
  rw [length_flatten_wrapped, length_flatten_operand]
  exact Nat.add_left_comm 2 _ 1

/-! ## Numbers that are added up -/

/-- A number that an edge for a symbol counts for once, and to which each kind of composition but
concatenation adds a constant. -/
structure AddedUp (f : Nfa → Nat) (bar star question : Nat) : Prop where
  symbol : ∀ c, f (symbol c) = 1
  concat : ∀ {a b}, Built a → Built b → f (a.concat b) = f a + f b
  alternate : ∀ {a b}, Built a → Built b → f (a.alternate b) = f a + f b + bar
  star : ∀ {a}, Built a → f a.star = f a + star
  optional : ∀ {a}, Built a → f a.optional = f a + question

theorem addedUp_final : AddedUp final 3 2 2 where
  symbol := fun _ => rfl
  concat := by
    intro a b ha _
    rw [ha.shaped.final_concat, Nat.add_comm]
  alternate := by
    intro a b ha hb
    rw [final_alternate, ha.shaped.size_eq, hb.shaped.size_eq]
    omega
  star := by
    intro a ha
    rw [final_star, ha.shaped.size_eq]
  optional := by
    intro a ha
    rw [final_optional, ha.shaped.size_eq]

theorem addedUp_edges : AddedUp (fun a => a.edges.length) 4 4 3 where
  symbol := length_edges_symbol
  concat := fun _ _ => length_edges_concat _ _
  alternate := fun _ _ => length_edges_alternate _ _
  star := fun _ => length_edges_star _
  optional := fun _ => length_edges_optional _

/-- **Such a number depends on the literals and operators only**, not on how they are nested. -/
theorem AddedUp.ofTree {f : Nfa → Nat} {bar star question : Nat} (hf : AddedUp f bar star question)
    (h : ∀ c ∈ t.literals, isLiteralChar c = true) :
    f (ofTree t) = t.literals.length + bar * t.spelling.count '|' + star * t.spelling.count '*' +
      question * t.spelling.count '?' := by
  induction t with
  | literal c =>
    have hc := h c List.mem_cons_self
    have hbar : isLiteralChar '|' = false := by decide
    have hstar : isLiteralChar '*' = false := by decide
    have hquestion : isLiteralChar '?' = false := by decide
    simp only [Tree.spelling, count_literal hc hbar, count_literal hc hstar,
      count_literal hc hquestion]
    exact hf.symbol c
  | sequence x y hx hy =>
    have hx := hx fun c hc => h c (List.mem_append_left _ hc)
    have hy := hy fun c hc => h c (List.mem_append_right _ hc)
    rw [Nfa.ofTree, hf.concat (built_ofTree x) (built_ofTree y), hx, hy]
    simp only [Tree.literals, Tree.spelling, List.length_append, List.count_append, Nat.mul_add]
    omega
  | alternative x y hx hy =>
    have hx := hx fun c hc => h c (List.mem_append_left _ hc)
    have hy := hy fun c hc => h c (List.mem_append_right _ hc)
    rw [Nfa.ofTree, hf.alternate (built_ofTree x) (built_ofTree y), hx, hy]
    simp [Tree.literals, Tree.spelling, Nat.mul_add]
    omega
  | star x hx =>
    rw [Nfa.ofTree, hf.star (built_ofTree x), hx h]
    simp [Tree.literals, Tree.spelling, Nat.mul_add]
    omega
  | optional x hx =>
    rw [Nfa.ofTree, hf.optional (built_ofTree x), hx h]
    simp [Tree.literals, Tree.spelling, Nat.mul_add]
    omega

end Nfa

open Nfa (ofTree)

/-- **The size of the automaton can be read off the pattern**: it depends on how many literals and
how many operators of each kind there are, and no edge is there twice. -/
theorem parse_size (h : parse s = .ok t) :
    Nfa.Assembly.ofTree t = some (ofTree t) ∧
      (ofTree t).size = 1 + s.countP isLiteralChar + 3 * s.count '|' +
        2 * (s.count '*' + s.count '?') ∧
      (ofTree t).edges.length =
        s.countP isLiteralChar + 4 * s.count '|' + 4 * s.count '*' + 3 * s.count '?' ∧
      (ofTree t).edges.Nodup ∧
      t.literals = s.filter isLiteralChar := by
  have hliterals := literals_of_parse h
  have hlength : t.literals.length = s.countP isLiteralChar := by
    rw [hliterals, List.countP_eq_length_filter]
  have hbar := count_spelling_of_parse h (c := '|') rfl
  have hstar := count_spelling_of_parse h (c := '*') rfl
  have hquestion := count_spelling_of_parse h (c := '?') rfl
  have hchars : ∀ c ∈ t.literals, isLiteralChar c = true := fun c hc =>
    isLiteralChar_of_mem_literals h hc
  have hfinal := Nfa.addedUp_final.ofTree hchars
  have hedges := Nfa.addedUp_edges.ofTree hchars
  rw [hlength, hbar, hstar, hquestion] at hfinal hedges
  have hwellFormed := (Nfa.built_ofTree t).wellFormed
  refine ⟨Nfa.assembly_ofTree t, ?_, hedges, Nfa.nodup_edges hwellFormed.nodup, hliterals⟩
  rw [← hwellFormed.final_eq, hfinal]
  omega

/-- Nested quantifiers, with parentheses that are not needed. -/
theorem parse_size_nested :
    ∃ t, parse ['(', '(', 'a', '*', '|', 'b', ')', '?', ')', 'a', '*'] = .ok t ∧
      (ofTree t).size = 13 ∧ (ofTree t).edges.length = 18 ∧ t.literals = ['a', 'b', 'a'] := by
  have hparse : parse ['(', '(', 'a', '*', '|', 'b', ')', '?', ')', 'a', '*'] =
      .ok (.sequence (.optional (.alternative (.star (.literal 'a')) (.literal 'b')))
        (.star (.literal 'a'))) := rfl
  obtain ⟨-, hsize, hedges, -, hliterals⟩ := parse_size hparse
  exact ⟨_, hparse, hsize, hedges, hliterals⟩

end PatternAutomata
