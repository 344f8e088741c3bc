import PatternAutomata.Count
import PatternAutomata.IndexSet
/-!
# Reachable indices

`reach bound next seeds` holds the seeds and every index below `bound` that `next` leads to from
them in any number of steps. The indices found last are followed all at once. Each round finds new
ones or is the last, and there are only `bound` new ones to find.
-/
namespace PatternAutomata

/-- How many indices below `bound` are not in `seen`. -/
def unseen (bound : Nat) (seen : IndexSet) : Nat :=
  (List.range bound).countP fun i => decide (i ∉ seen)

theorem unseen_lt_unseen {bound j : Nat} {seen seen' : IndexSet} (hkept : ∀ i ∈ seen, i ∈ seen')
    (hj : j < bound) (hnew : j ∉ seen) (hfound : j ∈ seen') :
    unseen bound seen' < unseen bound seen := by
  refine countP_lt_countP (a := j) (fun i _ hi => ?_) (List.mem_range.mpr hj) ?_ ?_
  · simp only [decide_eq_true_eq] at hi ⊢
    exact fun h => hi (hkept i h)
  · simpa using hnew
  · simpa using hfound

/-- The indices below `bound` that `next` leads to from `frontier` and that are not in `seen`. -/
def fresh (bound : Nat) (next : IndexSet → IndexSet) (seen frontier : IndexSet) : IndexSet :=
  ((next frontier).below bound).diff seen

theorem unseen_lt {bound : Nat} {next : IndexSet → IndexSet} {seen frontier : IndexSet}
    (h : ¬(fresh bound next seen frontier).isEmpty = true) :
    unseen bound (seen.union (fresh bound next seen frontier)) < unseen bound seen := by
  obtain ⟨j, hj⟩ : ∃ j, j ∈ fresh bound next seen frontier := by
    simpa [IndexSet.isEmpty_iff] using h
  obtain ⟨hb, hs⟩ : j < bound ∧ j ∉ seen := by
    simp only [fresh, IndexSet.mem_diff, IndexSet.mem_below] at hj
    exact ⟨hj.1.1, hj.2⟩
  exact unseen_lt_unseen (fun i hi => IndexSet.mem_union.mpr (.inl hi)) hb hs
    (IndexSet.mem_union.mpr (.inr hj))

/-- `seen` and all that is reached from `frontier`. -/
def reachFrom (bound : Nat) (next : IndexSet → IndexSet) (seen frontier : IndexSet) : IndexSet :=
  let new := fresh bound next seen frontier
  if new.isEmpty then seen else reachFrom bound next (seen.union new) new
termination_by unseen bound seen
decreasing_by exact unseen_lt ‹_›

/-- The seeds and every index below `bound` that `next` leads to from them. -/
def reach (bound : Nat) (next : IndexSet → IndexSet) (seeds : IndexSet) : IndexSet :=
  reachFrom bound next seeds seeds

/-- What is reached was seen before or lies below the bound. -/
theorem mem_seen_or_lt {bound : Nat} {next : IndexSet → IndexSet} {seen frontier : IndexSet}
    {i : Nat} (h : i ∈ reachFrom bound next seen frontier) : i ∈ seen ∨ i < bound := by
  fun_induction reachFrom bound next seen frontier with
  | case1 => exact .inl h
  | case2 seen frontier new _ ih =>
    rcases ih h with hs | hb
    · rcases IndexSet.mem_union.mp hs with hs | hn
      · exact .inl hs
      · have hn' : i ∈ fresh bound next seen frontier := hn
        simp only [fresh, IndexSet.mem_diff, IndexSet.mem_below] at hn'
        exact .inr hn'.1.1
    · exact .inr hb

theorem mem_seeds_or_lt {bound : Nat} {next : IndexSet → IndexSet} {seeds : IndexSet} {i : Nat}
    (h : i ∈ reach bound next seeds) : i ∈ seeds ∨ i < bound :=
  mem_seen_or_lt h

end PatternAutomata
