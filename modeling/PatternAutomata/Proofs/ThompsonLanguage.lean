import PatternAutomata.Proofs.ThompsonPaths
/-!
# The languages of composed automata

What a composition accepts is what its operator says of the operands' languages
(`thompson_homomorphism`), so the automaton of a tree accepts the language of the tree
(`accepts_ofTree`).
-/
namespace PatternAutomata.Nfa

namespace Shaped

variable {a b : Nfa} (ha : a.Shaped) (hb : b.Shaped) {w : List Char}

include ha in
theorem accepts_iff : a.accepts w = true ↔ a.Path 0 w a.final := by
  rw [accepts_iff_path ha.closed, ha.initial_eq]

theorem accepts_symbol {c : Char} : (Nfa.symbol c).accepts w = true ↔ w = [c] := by
  rw [(symbol c).accepts_iff, path_symbol]
  constructor
  · rintro (⟨h, -⟩ | ⟨-, h⟩)
    · exact absurd h Nat.one_ne_zero
    · exact h
  · intro h
    exact .inr ⟨rfl, h⟩

include ha

include hb in
theorem accepts_concat :
    (a.concat b).accepts w = true ↔
      ∃ u v, w = u ++ v ∧ a.accepts u = true ∧ b.accepts v = true := by
  rw [(ha.concat hb).accepts_iff, ha.path_concat, ha.final_concat]
  simp only [ha.accepts_iff, hb.accepts_iff]
  constructor
  · rintro (⟨h, -⟩ | ⟨u, v, s, rfl, hs, hu, hv⟩)
    · omega
    · obtain rfl : b.final = s := Nat.add_right_cancel hs
      exact ⟨u, v, rfl, hu, hv⟩
  · rintro ⟨u, v, rfl, hu, hv⟩
    exact .inr ⟨u, v, _, rfl, rfl, hu, hv⟩

include hb in
theorem accepts_alternate :
    (a.alternate b).accepts w = true ↔ a.accepts w = true ∨ b.accepts w = true := by
  have hsa := ha.size_eq
  have hsb := hb.size_eq
  rw [(ha.alternate hb).accepts_iff, ha.path_alternate hb, final_alternate, ha.accepts_iff,
    hb.accepts_iff]
  constructor
  · rintro (⟨h, -⟩ | ⟨s, hs, h⟩ | ⟨s, hs, h⟩ | ⟨-, h⟩)
    · omega
    · have := ha.path_le_final h
      omega
    · have := hb.path_le_final h
      omega
    · exact h
  · intro h
    exact .inr (.inr (.inr ⟨rfl, h⟩))

theorem accepts_star :
    a.star.accepts w = true ↔ Repeated (fun u => a.accepts u = true) w := by
  have hsa := ha.size_eq
  rw [ha.star.accepts_iff, ha.path_star, final_star, Repeated.congr fun _ => ha.accepts_iff]
  constructor
  · rintro (⟨h, -⟩ | ⟨u, v, s, -, hs, -, h⟩ | ⟨-, h⟩)
    · omega
    · have := ha.path_le_final h
      omega
    · exact h
  · intro h
    exact .inr (.inr ⟨rfl, h⟩)

theorem accepts_optional : a.optional.accepts w = true ↔ w = [] ∨ a.accepts w = true := by
  have hsa := ha.size_eq
  rw [ha.optional.accepts_iff, ha.path_optional, final_optional, ha.accepts_iff]
  constructor
  · rintro (⟨h, -⟩ | ⟨s, hs, h⟩ | ⟨-, h⟩)
    · omega
    · have := ha.path_le_final h
      omega
    · exact h
  · intro h
    exact .inr (.inr ⟨rfl, h⟩)

end Shaped

theorem accepts_ofTree (t : Tree) (w : List Char) :
    (ofTree t).accepts w = true ↔ t.Matches w := by
  have hshaped : ∀ t, (ofTree t).Shaped := fun t => (built_ofTree t).shaped
  induction t generalizing w with
  | literal c => rw [ofTree, Shaped.accepts_symbol, Tree.matches_literal_iff]
  | sequence x y hx hy =>
    rw [ofTree, (hshaped x).accepts_concat (hshaped y), Tree.matches_sequence_iff]
    simp only [hx, hy]
  | alternative x y hx hy =>
    rw [ofTree, (hshaped x).accepts_alternate (hshaped y), Tree.matches_alternative_iff]
    exact or_congr (hx w) (hy w)
  | star x hx =>
    rw [ofTree, (hshaped x).accepts_star, Tree.matches_star_iff]
    exact Repeated.congr hx
  | optional x hx =>
    rw [ofTree, (hshaped x).accepts_optional, Tree.matches_optional_iff]
    exact or_congr Iff.rfl (hx w)

/-- **The constructors are homomorphisms of languages**, whatever the operands were built from. -/
theorem thompson_homomorphism {a b : Nfa} (ha : a.Built) (hb : b.Built) (w : List Char) :
    (∀ c, (symbol c).accepts w = true ↔ w = [c]) ∧
    ((a.concat b).accepts w = true ↔
      ∃ u v, w = u ++ v ∧ a.accepts u = true ∧ b.accepts v = true) ∧
    ((a.alternate b).accepts w = true ↔ a.accepts w = true ∨ b.accepts w = true) ∧
    (a.star.accepts w = true ↔
      ∃ ws : List (List Char), w = ws.flatten ∧ ∀ u ∈ ws, a.accepts u = true) ∧
    (a.optional.accepts w = true ↔ w = [] ∨ a.accepts w = true) ∧
    ∀ t : Tree, (ofTree t).accepts w = true ↔ t.Matches w :=
  ⟨fun _ => Shaped.accepts_symbol, ha.shaped.accepts_concat hb.shaped,
    ha.shaped.accepts_alternate hb.shaped, ha.shaped.accepts_star, ha.shaped.accepts_optional,
    fun t => accepts_ofTree t w⟩

/-- Both operands accept the empty word, and the first one loops. -/
theorem thompson_homomorphism_nullable :
    (symbol 'a').star.Built ∧ (symbol 'b').optional.Built ∧
      ∃ u v, ['a', 'a', 'b'] = u ++ v ∧ (symbol 'a').star.accepts u = true ∧
        (symbol 'b').optional.accepts v = true := by
  have ha : (symbol 'a').star.Built := .star (.symbol 'a')
  have hb : (symbol 'b').optional.Built := .optional (.symbol 'b')
  have haccepts :
      ((symbol 'a').star.concat (symbol 'b').optional).accepts ['a', 'a', 'b'] = true := by
    decide +kernel
  exact ⟨ha, hb, (thompson_homomorphism ha hb ['a', 'a', 'b']).2.1.mp haccepts⟩

end PatternAutomata.Nfa
