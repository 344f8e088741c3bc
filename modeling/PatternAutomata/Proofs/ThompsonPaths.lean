import PatternAutomata.Proofs.Language
import PatternAutomata.Proofs.Paths
import PatternAutomata.Proofs.ThompsonEdges
/-!
# The paths of composed automata

For each composition, where a path from its initial state can be after a word, in terms of the
operands' paths (`path_concat`, `path_alternate`, `path_star`, `path_optional`). A path is followed
edge by edge: it stays in the operand it is in until it comes to that operand's final state, and the
joining edges lead on from there. It cannot leave an operand elsewhere, because no edge does.
-/
namespace PatternAutomata

namespace Nfa.Shaped

variable {a b : Nfa} {q r : Nat} {u v w : List Char}

theorem path_symbol {c : Char} :
    (Nfa.symbol c).Path 0 w r ↔ (r = 0 ∧ w = []) ∨ (r = 1 ∧ w = [c]) := by
  constructor
  · intro h
    induction h with
    | refl => exact .inl ⟨rfl, rfl⟩
    | @step w r s l _ hs ih =>
      obtain ⟨rfl, rfl, rfl⟩ := step_symbol.mp hs
      rcases ih with ⟨-, rfl⟩ | ⟨h, -⟩
      · exact .inr ⟨rfl, rfl⟩
      · exact absurd h (by simp)
  · rintro (⟨rfl, rfl⟩ | ⟨rfl, rfl⟩)
    · exact .refl
    · exact Path.refl.step (step_symbol.mpr ⟨rfl, rfl, rfl⟩)

variable (ha : a.Shaped) (hb : b.Shaped)
include ha

theorem path_le_final (h : a.Path 0 w r) : r ≤ a.final := by
  cases h with
  | refl => exact Nat.zero_le _
  | step _ hs => exact ha.target_le_final hs

/-! ## One after the other -/

theorem path_concat_first (h : a.Path q w r) : (a.concat b).Path q w r :=
  h.shift (k := 0) fun _ _ _ hs => ha.step_concat.mpr (.inl hs)

theorem path_concat_second (h : b.Path q w r) :
    (a.concat b).Path (q + a.final) w (r + a.final) :=
  h.shift fun q _ r hs => ha.step_concat.mpr (.inr ⟨q, r, rfl, rfl, hs⟩)

/-- A path is in the first operand before its final state, or it went through that state, which is
also the initial one of the second operand. -/
theorem path_concat :
    (a.concat b).Path 0 w r ↔
      (r < a.final ∧ a.Path 0 w r) ∨
        ∃ u v s, w = u ++ v ∧ r = s + a.final ∧ a.Path 0 u a.final ∧ b.Path 0 v s := by
  constructor
  · intro h
    induction h with
    | refl => exact .inl ⟨ha.final_pos, .refl⟩
    | @step w r s l _ hs ih =>
      rcases ih with ⟨hr, hp⟩ | ⟨u, v, p, rfl, rfl, hu, hv⟩
      · rcases ha.step_concat.mp hs with hs | ⟨p, -, rfl, -, -⟩
        · rcases Nat.lt_or_eq_of_le (ha.target_le_final hs) with hlt | rfl
          · exact .inl ⟨hlt, hp.step hs⟩
          · exact .inr ⟨_, [], 0, by simp, by simp, hp.step hs, .refl⟩
        · omega
      · rcases ha.step_concat.mp hs with hs | ⟨p', s, hp, rfl, hs⟩
        · have := ha.lt_final hs
          omega
        · obtain rfl : p = p' := by omega
          exact .inr ⟨u, _, s, List.append_assoc .., rfl, hu, hv.step hs⟩
  · rintro (⟨-, h⟩ | ⟨u, v, s, rfl, rfl, hu, hv⟩)
    · exact ha.path_concat_first h
    · have hv' := ha.path_concat_second hv
      rw [Nat.zero_add] at hv'
      exact (ha.path_concat_first hu).trans hv'

/-! ## Either of two -/

include hb in
theorem path_alternate_first (h : a.Path 0 w r) : (a.alternate b).Path 0 w (r + 1) :=
  h.entered (fun q _ r hs => (ha.step_alternate hb).mpr (.inr (.inl ⟨q, r, rfl, rfl, hs⟩)))
    ((ha.step_alternate hb).mpr (.inl ⟨rfl, rfl, by simp⟩))

include hb in
theorem path_alternate_second (h : b.Path 0 w r) :
    (a.alternate b).Path 0 w (r + (a.size + 1)) :=
  h.entered (fun q _ r hs => (ha.step_alternate hb).mpr (.inr (.inr (.inl ⟨q, r, rfl, rfl, hs⟩))))
    ((ha.step_alternate hb).mpr (.inl ⟨rfl, rfl, by simp⟩))

include hb in
/-- A path is at the start, in one of the operands, or went through one to the end. -/
theorem path_alternate :
    (a.alternate b).Path 0 w r ↔
      (r = 0 ∧ w = []) ∨
        (∃ s, r = s + 1 ∧ a.Path 0 w s) ∨
        (∃ s, r = s + (a.size + 1) ∧ b.Path 0 w s) ∨
        (r = a.size + b.size + 1 ∧ (a.Path 0 w a.final ∨ b.Path 0 w b.final)) := by
  have hsa := ha.size_eq
  have hsb := hb.size_eq
  constructor
  · intro h
    induction h with
    | refl => exact .inl ⟨rfl, rfl⟩
    | @step w r s l _ hs ih =>
      have hs' := (ha.step_alternate hb).mp hs
      rcases ih with ⟨rfl, rfl⟩ | ⟨p, rfl, hp⟩ | ⟨p, rfl, hp⟩ | ⟨rfl, -⟩
      · rcases hs' with ⟨-, rfl, hr⟩ | ⟨p, _, hq, -, -⟩ | ⟨p, _, hq, -, -⟩ | ⟨hq, -, -⟩
        · have hr : s = 1 ∨ s = a.size + 1 := by simpa using hr
          rcases hr with rfl | rfl
          · exact .inr (.inl ⟨0, rfl, .refl⟩)
          · exact .inr (.inr (.inl ⟨0, (Nat.zero_add _).symm, .refl⟩))
        all_goals omega
      · have hle := ha.path_le_final hp
        rcases hs' with ⟨hq, -⟩ | ⟨p', s, hq, rfl, hs⟩ | ⟨p', s, hq, -, hs⟩ | ⟨hq, rfl, rfl⟩
        · omega
        · obtain rfl : p = p' := by omega
          exact .inr (.inl ⟨s, rfl, hp.step hs⟩)
        · omega
        · obtain rfl : p = a.final := by omega
          exact .inr (.inr (.inr ⟨rfl, .inl (by simpa [Label.word] using hp)⟩))
      · have hle := hb.path_le_final hp
        rcases hs' with ⟨hq, -⟩ | ⟨p', s, hq, -, hs⟩ | ⟨p', s, hq, rfl, hs⟩ | ⟨hq, rfl, rfl⟩
        · omega
        · have := ha.lt_final hs
          omega
        · obtain rfl : p = p' := by omega
          exact .inr (.inr (.inl ⟨s, rfl, hp.step hs⟩))
        · obtain rfl : p = b.final := by omega
          exact .inr (.inr (.inr ⟨rfl, .inr (by simpa [Label.word] using hp)⟩))
      · have hlt := (ha.alternate hb).lt_final hs
        rw [final_alternate] at hlt
        omega
  · rintro (⟨rfl, rfl⟩ | ⟨s, rfl, h⟩ | ⟨s, rfl, h⟩ | ⟨rfl, h | h⟩)
    · exact .refl
    · exact ha.path_alternate_first hb h
    · exact ha.path_alternate_second hb h
    · exact (ha.path_alternate_first hb h).epsilon
        ((ha.step_alternate hb).mpr (.inr (.inr (.inr ⟨.inl rfl, rfl, rfl⟩))))
    · exact (ha.path_alternate_second hb h).epsilon
        ((ha.step_alternate hb).mpr (.inr (.inr (.inr ⟨.inr rfl, rfl, rfl⟩))))

/-! ## Any number of times, or not at all -/

theorem path_star_inside (h : a.Path 0 w r) : a.star.Path 0 w (r + 1) :=
  h.entered (fun q _ r hs => ha.step_star.mpr (.inr (.inl ⟨q, r, rfl, rfl, hs⟩)))
    (ha.step_star.mpr (.inl ⟨rfl, rfl, by simp⟩))

/-- Each pass through the operand comes back to the start. -/
theorem path_star_loop (h : Repeated (fun u => a.Path 0 u a.final) w) : a.star.Path 0 w 0 := by
  have hback : a.star.Step (a.final + 1) .epsilon 0 :=
    ha.step_star.mpr (.inr (.inr ⟨rfl, rfl, by simp⟩))
  obtain ⟨ws, rfl, hws⟩ := h
  induction ws with
  | nil => exact .refl
  | cons u ws ih =>
    have hu := ha.path_star_inside (hws u List.mem_cons_self)
    rw [List.flatten_cons]
    exact (hu.epsilon hback).trans (ih fun x hx => hws x (List.mem_cons_of_mem _ hx))

/-- A path passed through the operand any number of times, and is at the start, in the operand
again, or at the end. -/
theorem path_star :
    a.star.Path 0 w r ↔
      (r = 0 ∧ Repeated (fun u => a.Path 0 u a.final) w) ∨
        (∃ u v s, w = u ++ v ∧ r = s + 1 ∧ Repeated (fun u => a.Path 0 u a.final) u ∧
          a.Path 0 v s) ∨
        (r = a.size + 1 ∧ Repeated (fun u => a.Path 0 u a.final) w) := by
  have hsa := ha.size_eq
  constructor
  · intro h
    induction h with
    | refl => exact .inl ⟨rfl, .nil⟩
    | @step w r s l _ hs ih =>
      have hs' := ha.step_star.mp hs
      rcases ih with ⟨rfl, hw⟩ | ⟨u, v, p, rfl, rfl, hu, hv⟩ | ⟨rfl, -⟩
      · rcases hs' with ⟨-, rfl, hr⟩ | ⟨p, _, hq, -, -⟩ | ⟨hq, -⟩
        · have hr : s = 1 ∨ s = a.size + 1 := by simpa using hr
          rcases hr with rfl | rfl
          · exact .inr (.inl ⟨w, [], 0, by simp [Label.word], rfl, hw, .refl⟩)
          · exact .inr (.inr ⟨rfl, by simpa [Label.word] using hw⟩)
        all_goals omega
      · have hle := ha.path_le_final hv
        rcases hs' with ⟨hq, -⟩ | ⟨p', s, hq, rfl, hs⟩ | ⟨hq, rfl, hr⟩
        · omega
        · obtain rfl : p = p' := by omega
          exact .inr (.inl ⟨u, _, s, List.append_assoc .., rfl, hu, hv.step hs⟩)
        · obtain rfl : p = a.final := by omega
          have hr : s = 0 ∨ s = a.size + 1 := by simpa using hr
          rw [Label.word, List.append_nil]
          rcases hr with rfl | rfl
          · exact .inl ⟨rfl, hu.snoc hv⟩
          · exact .inr (.inr ⟨rfl, hu.snoc hv⟩)
      · have hlt := ha.star.lt_final hs
        rw [final_star] at hlt
        omega
  · rintro (⟨rfl, hw⟩ | ⟨u, v, s, rfl, rfl, hu, hv⟩ | ⟨rfl, hw⟩)
    · exact ha.path_star_loop hw
    · exact (ha.path_star_loop hu).trans (ha.path_star_inside hv)
    · exact (ha.path_star_loop hw).epsilon (ha.step_star.mpr (.inl ⟨rfl, rfl, by simp⟩))

theorem path_optional_inside (h : a.Path 0 w r) : a.optional.Path 0 w (r + 1) :=
  h.entered (fun q _ r hs => ha.step_optional.mpr (.inr (.inl ⟨q, r, rfl, rfl, hs⟩)))
    (ha.step_optional.mpr (.inl ⟨rfl, rfl, by simp⟩))

/-- A path is at the start, in the operand, or at the end with or without having been in it. -/
theorem path_optional :
    a.optional.Path 0 w r ↔
      (r = 0 ∧ w = []) ∨ (∃ s, r = s + 1 ∧ a.Path 0 w s) ∨
        (r = a.size + 1 ∧ (w = [] ∨ a.Path 0 w a.final)) := by
  have hsa := ha.size_eq
  constructor
  · intro h
    induction h with
    | refl => exact .inl ⟨rfl, rfl⟩
    | @step w r s l _ hs ih =>
      have hs' := ha.step_optional.mp hs
      rcases ih with ⟨rfl, rfl⟩ | ⟨p, rfl, hp⟩ | ⟨rfl, -⟩
      · rcases hs' with ⟨-, rfl, hr⟩ | ⟨p, _, hq, -, -⟩ | ⟨hq, -⟩
        · have hr : s = 1 ∨ s = a.size + 1 := by simpa using hr
          rcases hr with rfl | rfl
          · exact .inr (.inl ⟨0, rfl, .refl⟩)
          · exact .inr (.inr ⟨rfl, .inl rfl⟩)
        all_goals omega
      · have hle := ha.path_le_final hp
        rcases hs' with ⟨hq, -⟩ | ⟨p', s, hq, rfl, hs⟩ | ⟨hq, rfl, hr⟩
        · omega
        · obtain rfl : p = p' := by omega
          exact .inr (.inl ⟨s, rfl, hp.step hs⟩)
        · obtain rfl : p = a.final := by omega
          have hr : s = a.size + 1 := by simpa using hr
          exact .inr (.inr ⟨hr, .inr (by simpa [Label.word] using hp)⟩)
      · have hlt := ha.optional.lt_final hs
        rw [final_optional] at hlt
        omega
  · rintro (⟨rfl, rfl⟩ | ⟨s, rfl, h⟩ | ⟨rfl, rfl | h⟩)
    · exact .refl
    · exact ha.path_optional_inside h
    · exact Path.refl.epsilon (ha.step_optional.mpr (.inl ⟨rfl, rfl, by simp⟩))
    · exact (ha.path_optional_inside h).epsilon
        (ha.step_optional.mpr (.inr (.inr ⟨rfl, rfl, by simp⟩)))

end Nfa.Shaped
end PatternAutomata
