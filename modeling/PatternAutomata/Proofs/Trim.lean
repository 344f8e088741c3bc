import PatternAutomata.Proofs.SubsetConstruction
import PatternAutomata.Proofs.ThompsonLanguage
/-!
# No state is superfluous

Every state of an automaton that can be built lies on a path from the initial state to the final one
(`Built.trim`): a state of an operand does so within the operand, and the joining edges lead to the
operand and on from it. So a run is nowhere exactly if what it has read begins no word of the
language (`isEmpty_active_iff`).
-/
namespace PatternAutomata.Nfa

/-- A path from the initial state to the final one goes through `q`. -/
def Useful (a : Nfa) (q : Nat) : Prop :=
  (∃ u, a.Path a.initial u q) ∧ ∃ v, a.Path q v a.final

/-- No state could be left out. -/
def Trim (a : Nfa) : Prop := ∀ q < a.size, a.Useful q

variable {a b c : Nfa} {q k : Nat} {u v w : List Char}

/-- A useful state of an operand is useful in a composition that leads to the operand's initial
state and on from its final one. -/
theorem Useful.shift (h : a.Useful q)
    (hstep : ∀ q l r, a.Step q l r → c.Step (q + k) l (r + k))
    (hentry : ∃ u, c.Path c.initial u (a.initial + k))
    (hexit : ∃ v, c.Path (a.final + k) v c.final) : c.Useful (q + k) := by
  obtain ⟨⟨u, hu⟩, v, hv⟩ := h
  obtain ⟨u', hu'⟩ := hentry
  obtain ⟨v', hv'⟩ := hexit
  constructor
  · exact ⟨_, hu'.trans (hu.shift hstep)⟩
  · exact ⟨_, (hv.shift hstep).trans hv'⟩

/-- The same for an operand between two states of the composition's own. -/
theorem Useful.enclosed (h : a.Useful q)
    (hstep : ∀ q l r, a.Step q l r → c.Step (q + k) l (r + k))
    (hentry : c.Step c.initial .epsilon (a.initial + k))
    (hexit : c.Step (a.final + k) .epsilon c.final) : c.Useful (q + k) :=
  h.shift hstep ⟨_, Path.refl.epsilon hentry⟩ ⟨_, Path.refl.epsilon hexit⟩

/-- A path through any state has two useful ends. -/
theorem Useful.ends (h : a.Useful q) : a.Useful a.initial ∧ a.Useful a.final := by
  obtain ⟨⟨u, hu⟩, v, hv⟩ := h
  have hpath : a.Path a.initial (u ++ v) a.final := hu.trans hv
  exact ⟨⟨⟨_, .refl⟩, _, hpath⟩, ⟨_, hpath⟩, _, .refl⟩

/-! ## Every composition is trim again -/

theorem Trim.symbol (c : Char) : (Nfa.symbol c).Trim := by
  have hstep : (Nfa.symbol c).Step 0 (.symbol c) 1 := Shaped.step_symbol.mpr ⟨rfl, rfl, rfl⟩
  have hstart : (Nfa.symbol c).Useful 0 := ⟨⟨_, .refl⟩, _, Path.refl.step hstep⟩
  intro q hq
  have hsize : (Nfa.symbol c).size = 2 := rfl
  obtain rfl | rfl : q = 0 ∨ q = 1 := by omega
  · exact hstart
  · exact hstart.ends.2

namespace Shaped

variable (ha : a.Shaped) (hb : b.Shaped)
include ha

theorem initial_lt_size : a.initial < a.size := by
  rw [ha.initial_eq, ha.size_eq]
  omega

theorem final_lt_size : a.final < a.size := by
  rw [ha.size_eq]
  omega

/-- A path leads through all of a trim automaton. -/
theorem exists_path_of_trim (ta : a.Trim) : ∃ w, a.Path 0 w a.final := by
  have hpath := (ta a.initial ha.initial_lt_size).2
  rwa [ha.initial_eq] at hpath

include hb

theorem trim_concat (ta : a.Trim) (tb : b.Trim) : (a.concat b).Trim := by
  obtain ⟨u, hu⟩ := ha.exists_path_of_trim ta
  obtain ⟨v, hv⟩ := hb.exists_path_of_trim tb
  have hinitial : (a.concat b).initial = 0 := ha.initial_eq
  have hfirst := ha.path_concat_first (b := b) hu
  have hsecond := ha.path_concat_second hv
  rw [Nat.zero_add, ← ha.final_concat] at hsecond
  intro q hq
  rcases ha.cases_concat hb hq with hqa | ⟨s, hs, rfl⟩
  · have hlt : q < a.size := hqa.trans ha.final_lt_size
    refine (ta q hlt).shift (k := 0) (fun _ _ _ hs => ha.step_concat.mpr (.inl hs)) ?_ ⟨v, hsecond⟩
    rw [hinitial, ha.initial_eq]
    exact ⟨_, .refl⟩
  · refine (tb s hs).shift (fun p _ s hs => ha.step_concat.mpr (.inr ⟨p, s, rfl, rfl, hs⟩)) ?_ ?_
    · rw [hinitial, hb.initial_eq, Nat.zero_add]
      exact ⟨u, hfirst⟩
    · rw [ha.final_concat]
      exact ⟨_, .refl⟩

theorem trim_alternate (ta : a.Trim) (tb : b.Trim) : (a.alternate b).Trim := by
  have hleft : ∀ q < a.size, (a.alternate b).Useful (q + 1) := by
    intro q hq
    refine (ta q hq).enclosed ?_ ?_ ?_
    · intro p l s hs
      exact (ha.step_alternate hb).mpr (.inr (.inl ⟨p, s, rfl, rfl, hs⟩))
    · exact (ha.step_alternate hb).mpr (.inl ⟨rfl, rfl, by simp [ha.initial_eq]⟩)
    · exact (ha.step_alternate hb).mpr (.inr (.inr (.inr ⟨.inl rfl, rfl, rfl⟩)))
  have hright : ∀ q < b.size, (a.alternate b).Useful (q + (a.size + 1)) := by
    intro q hq
    refine (tb q hq).enclosed ?_ ?_ ?_
    · intro p l s hs
      exact (ha.step_alternate hb).mpr (.inr (.inr (.inl ⟨p, s, rfl, rfl, hs⟩)))
    · exact (ha.step_alternate hb).mpr (.inl ⟨rfl, rfl, by simp [hb.initial_eq]⟩)
    · exact (ha.step_alternate hb).mpr (.inr (.inr (.inr ⟨.inr rfl, rfl, rfl⟩)))
  obtain ⟨hzero, hlast⟩ := (hleft a.final ha.final_lt_size).ends
  intro q hq
  rcases ha.cases_alternate hb hq with rfl | ⟨s, hs, rfl⟩ | ⟨s, hs, rfl⟩ | rfl
  · exact hzero
  · exact hleft s hs
  · exact hright s hs
  · exact hlast

omit hb

/-- What `star` and `optional` share: the operand lies between two states of their own. -/
theorem trim_wrapped (ta : a.Trim) (hinitial : c.initial = 0) (hsize : c.size = a.size + 2)
    (hfinal : c.final = a.size + 1)
    (hstep : ∀ q l r, a.Step q l r → c.Step (q + 1) l (r + 1))
    (hentry : c.Step 0 .epsilon 1) (hexit : c.Step (a.final + 1) .epsilon c.final) : c.Trim := by
  have hinside : ∀ q < a.size, c.Useful (q + 1) := by
    intro q hq
    refine (ta q hq).enclosed hstep ?_ hexit
    rwa [hinitial, ha.initial_eq]
  obtain ⟨hzero, hlast⟩ := (hinside a.final ha.final_lt_size).ends
  rw [hinitial] at hzero
  rw [hfinal] at hlast
  intro q hq
  rw [hsize] at hq
  rcases cases_wrapped hq with rfl | ⟨s, hs, rfl⟩ | rfl
  · exact hzero
  · exact hinside s hs
  · exact hlast

theorem trim_star (ta : a.Trim) : a.star.Trim := by
  refine ha.trim_wrapped ta rfl ha.size_star rfl ?_ ?_ ?_
  · intro q l r hs
    exact ha.step_star.mpr (.inr (.inl ⟨q, r, rfl, rfl, hs⟩))
  · exact ha.step_star.mpr (.inl ⟨rfl, rfl, by simp⟩)
  · exact ha.step_star.mpr (.inr (.inr ⟨rfl, rfl, by simp [final_star]⟩))

theorem trim_optional (ta : a.Trim) : a.optional.Trim := by
  refine ha.trim_wrapped ta rfl ha.size_optional rfl ?_ ?_ ?_
  · intro q l r hs
    exact ha.step_optional.mpr (.inr (.inl ⟨q, r, rfl, rfl, hs⟩))
  · exact ha.step_optional.mpr (.inl ⟨rfl, rfl, by simp⟩)
  · exact ha.step_optional.mpr (.inr (.inr ⟨rfl, rfl, by simp [final_optional]⟩))

end Shaped

/-- **Every state lies on a path from the initial state to the final one.** -/
theorem Built.trim (h : a.Built) : a.Trim := by
  induction h with
  | symbol c => exact .symbol c
  | concat ha hb ta tb => exact ha.shaped.trim_concat hb.shaped ta tb
  | alternate ha hb ta tb => exact ha.shaped.trim_alternate hb.shaped ta tb
  | star ha ta => exact ha.shaped.trim_star ta
  | optional ha ta => exact ha.shaped.trim_optional ta

/-! ## Where a run is nowhere -/

/-- A run that is nowhere stays nowhere. -/
theorem isEmpty_active_append (ha : a.Closed) (h : (a.active w).isEmpty = true) :
    (a.active (w ++ v)).isEmpty = true := by
  induction v using List.reverseRecOn with
  | nil => rwa [List.append_nil]
  | append_singleton v c ih =>
    rw [← List.append_assoc, active_concat]
    exact isEmpty_advance ha ih

/-- **A run is somewhere exactly if what it has read can still become a word of the language.** -/
theorem isEmpty_active_iff (ha : a.Built) :
    (a.active w).isEmpty = false ↔ ∃ v, a.accepts (w ++ v) = true := by
  have hs := ha.shaped
  constructor
  · intro h
    obtain ⟨q, hq⟩ := exists_mem_of_isEmpty_eq_false h
    have hpath : a.Path 0 w q := by
      rw [← hs.initial_eq]
      exact (mem_active hs.closed).mp hq
    have hlt : q < a.size := by
      have hle := hs.path_le_final hpath
      have hsize := hs.size_eq
      omega
    obtain ⟨v, hv⟩ := (ha.trim q hlt).2
    exact ⟨v, hs.accepts_iff.mpr (hpath.trans hv)⟩
  · rintro ⟨v, hv⟩
    by_contra hempty
    have hnone := isEmpty_active_append (v := v) hs.closed (by simpa using hempty)
    rw [accepts, decide_eq_true_eq] at hv
    exact IndexSet.isEmpty_iff.mp hnone _ hv

end PatternAutomata.Nfa
