import Mathlib.Logic.Relation
import PatternAutomata.Nfa.Run
/-!
# The search finds what can be reached, and nothing else

`reach` follows a whole frontier at once. Its members are exactly the indices that a chain of steps
leads to from a seed (`mem_reach`). For a closure the steps are the edges that consume nothing
(`mem_closure`).
-/
namespace PatternAutomata

open Relation (ReflTransGen)

/-- `R` leads from `j` to `i`, and `i` is below the bound. -/
def StepBelow (bound : Nat) (R : Nat → Nat → Prop) (j i : Nat) : Prop := R j i ∧ i < bound

section
variable {bound : Nat} {next : IndexSet → IndexSet} {R : Nat → Nat → Prop}
  {seen frontier seeds : IndexSet} {i j : Nat}

theorem mem_fresh (hR : ∀ s i, i ∈ next s ↔ ∃ j ∈ s, R j i) :
    i ∈ fresh bound next seen frontier ↔ (∃ j ∈ frontier, StepBelow bound R j i) ∧ i ∉ seen := by
  simp only [fresh, IndexSet.mem_diff, IndexSet.mem_below, hR, StepBelow]
  constructor
  · rintro ⟨⟨hi, j, hj, hji⟩, hs⟩
    exact ⟨⟨j, hj, hji, hi⟩, hs⟩
  · rintro ⟨⟨j, hj, hji, hi⟩, hs⟩
    exact ⟨⟨hi, j, hj, hji⟩, hs⟩

theorem mem_reachFrom_of_mem_seen (h : i ∈ seen) : i ∈ reachFrom bound next seen frontier := by
  fun_induction reachFrom bound next seen frontier with
  | case1 => exact h
  | case2 seen frontier new _ ih => exact ih (IndexSet.mem_union.mpr (.inl h))

/-- Only what a chain of steps leads to is found. -/
theorem exists_chain_of_mem_reachFrom (hR : ∀ s i, i ∈ next s ↔ ∃ j ∈ s, R j i)
    (hf : ∀ j ∈ frontier, j ∈ seen) (h : i ∈ reachFrom bound next seen frontier) :
    ∃ j ∈ seen, ReflTransGen (StepBelow bound R) j i := by
  fun_induction reachFrom bound next seen frontier with
  | case1 => exact ⟨i, h, .refl⟩
  | case2 seen frontier new _ ih =>
    have hnew : ∀ k ∈ new, k ∈ seen.union new := fun k hk => IndexSet.mem_union.mpr (.inr hk)
    obtain ⟨k, hk, hki⟩ := ih hnew h
    rcases IndexSet.mem_union.mp hk with hk | hk
    · exact ⟨k, hk, hki⟩
    · obtain ⟨⟨j, hj, hjk⟩, -⟩ := (mem_fresh hR).mp hk
      exact ⟨j, hf j hj, .head hjk hki⟩

/-- Every index that was seen is in the frontier, or its steps lead to indices that were seen. Then
the steps from all that is found lead to what is found. -/
theorem reachFrom_closed (hR : ∀ s i, i ∈ next s ↔ ∃ j ∈ s, R j i)
    (hseen : ∀ j ∈ seen, j ∈ frontier ∨ ∀ i, StepBelow bound R j i → i ∈ seen)
    (hj : j ∈ reachFrom bound next seen frontier) (hji : StepBelow bound R j i) :
    i ∈ reachFrom bound next seen frontier := by
  fun_induction reachFrom bound next seen frontier with
  | case1 seen frontier new hnew =>
    rcases hseen j hj with hjf | hjs
    · -- nothing was new, so a step from the frontier leads to what was seen
      by_cases hi : i ∈ seen
      · exact hi
      · have hnew' : i ∈ new := (mem_fresh hR).mpr ⟨⟨j, hjf, hji⟩, hi⟩
        exact absurd hnew' (IndexSet.isEmpty_iff.mp hnew i)
    · exact hjs i hji
  | case2 seen frontier new _ ih =>
    refine ih (fun k hk => ?_) hj
    rcases IndexSet.mem_union.mp hk with hk | hk
    · rcases hseen k hk with hkf | hks
      · refine .inr fun i hki => ?_
        rw [IndexSet.mem_union]
        by_cases hi : i ∈ seen
        · exact .inl hi
        · exact .inr ((mem_fresh hR).mpr ⟨⟨k, hkf, hki⟩, hi⟩)
      · exact .inr fun i hki => IndexSet.mem_union.mpr (.inl (hks i hki))
    · exact .inl hk

/-- **The search is exact**: it finds what a chain of steps below the bound leads to from a seed. -/
theorem mem_reach (hR : ∀ s i, i ∈ next s ↔ ∃ j ∈ s, R j i) :
    i ∈ reach bound next seeds ↔ ∃ j ∈ seeds, ReflTransGen (StepBelow bound R) j i := by
  constructor
  · exact exists_chain_of_mem_reachFrom hR fun _ hj => hj
  · rintro ⟨j, hj, hji⟩
    induction hji with
    | refl => exact mem_reachFrom_of_mem_seen hj
    | tail _ hki ih => exact reachFrom_closed hR (fun _ hk => .inl hk) ih hki

end

/-! ## Closures -/

namespace Nfa

/-- An edge labelled `l` leads from `q` to `r`. -/
def Step (a : Nfa) (q : Nat) (l : Label) (r : Nat) : Prop := ⟨l, r⟩ ∈ a.edgesFrom q

/-- No edge leads out of the automaton. -/
def Closed (a : Nfa) : Prop := ∀ q l r, a.Step q l r → r < a.size

theorem mem_closure {a : Nfa} (ha : a.Closed) {s : IndexSet} {i : Nat} :
    i ∈ a.closure s ↔ ∃ q ∈ s, ReflTransGen (fun q r => a.Step q .epsilon r) q i := by
  have hR : ∀ (s : IndexSet) i,
      i ∈ s.image (a.targets .epsilon) ↔ ∃ q ∈ s, a.Step q .epsilon i := by
    intro s i
    simp only [IndexSet.mem_image, mem_targets, Step]
  have hstep : StepBelow a.size (fun q r => a.Step q .epsilon r) =
      fun q r => a.Step q .epsilon r := by
    funext q r
    exact propext ⟨fun h => h.1, fun h => ⟨h, ha q _ r h⟩⟩
  unfold closure
  rw [mem_reach hR, hstep]

end Nfa
end PatternAutomata
