import PatternAutomata.Pattern.Language
/-!
# The language of a tree, operator by operator

`Tree.Matches` is given by rules; here each kind of node has its defining equation, and `star` is
the closure under concatenation (`matches_star_iff`).
-/
namespace PatternAutomata

/-- The words that are put together from any number of words with `P`. -/
def Repeated (P : List Char → Prop) (w : List Char) : Prop :=
  ∃ ws : List (List Char), w = ws.flatten ∧ ∀ u ∈ ws, P u

namespace Repeated

variable {P Q : List Char → Prop} {u v w : List Char}

theorem nil : Repeated P [] := ⟨[], rfl, by simp⟩

theorem cons (hu : P u) (hv : Repeated P v) : Repeated P (u ++ v) := by
  obtain ⟨ws, rfl, hws⟩ := hv
  refine ⟨u :: ws, by simp, fun x hx => ?_⟩
  rcases List.mem_cons.mp hx with rfl | hx
  · exact hu
  · exact hws x hx

theorem snoc (hu : Repeated P u) (hv : P v) : Repeated P (u ++ v) := by
  obtain ⟨ws, rfl, hws⟩ := hu
  refine ⟨ws ++ [v], by simp, fun x hx => ?_⟩
  rcases List.mem_append.mp hx with hx | hx
  · exact hws x hx
  · rw [List.mem_singleton.mp hx]
    exact hv

theorem congr (h : ∀ u, P u ↔ Q u) : Repeated P w ↔ Repeated Q w := by
  simp only [Repeated, h]

end Repeated

namespace Tree

variable {x y : Tree} {w : List Char}

theorem matches_literal_iff {c : Char} : (literal c).Matches w ↔ w = [c] := by
  constructor
  · intro h
    cases h
    rfl
  · rintro rfl
    exact .literal c

theorem matches_sequence_iff :
    (sequence x y).Matches w ↔ ∃ u v, w = u ++ v ∧ x.Matches u ∧ y.Matches v := by
  constructor
  · intro h
    cases h with
    | sequence hu hv => exact ⟨_, _, rfl, hu, hv⟩
  · rintro ⟨u, v, rfl, hu, hv⟩
    exact .sequence hu hv

theorem matches_alternative_iff : (alternative x y).Matches w ↔ x.Matches w ∨ y.Matches w := by
  constructor
  · intro h
    cases h with
    | first h => exact .inl h
    | second h => exact .inr h
  · rintro (h | h)
    · exact .first h
    · exact .second h

theorem matches_optional_iff : (optional x).Matches w ↔ w = [] ∨ x.Matches w := by
  constructor
  · intro h
    cases h with
    | absent => exact .inl rfl
    | present h => exact .inr h
  · rintro (rfl | h)
    · exact .absent
    · exact .present h

theorem matches_star_iff : (star x).Matches w ↔ Repeated x.Matches w := by
  constructor
  · intro h
    generalize ht : star x = t at h
    induction h with
    | finished => exact .nil
    | again hu _ _ ih =>
      obtain rfl : x = _ := Tree.star.inj ht
      exact .cons hu (ih ht)
    | _ => cases ht
  · rintro ⟨ws, rfl, hws⟩
    induction ws with
    | nil => exact .finished
    | cons u ws ih =>
      rw [List.flatten_cons]
      exact .again (hws u List.mem_cons_self) (ih fun v hv => hws v (List.mem_cons_of_mem _ hv))

end Tree
end PatternAutomata
