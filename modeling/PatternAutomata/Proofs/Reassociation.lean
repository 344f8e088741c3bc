import Mathlib.Logic.Relation
import Mathlib.Order.WellFounded
import PatternAutomata.Pattern.Tree
/-!
# Sequences nested to the right

A sequence whose first part is a sequence can be re-associated. Doing this anywhere in a tree as
long as it is possible ends (`wellFounded_reassociates`), and it leads to one tree, whatever is done
first: the tree with all its sequences nested to the right (`exhausted_iff`).
-/
namespace PatternAutomata.Tree

open Relation (ReflTransGen)

/-- One sequence somewhere in the tree is re-associated. -/
inductive Reassociates : Tree → Tree → Prop
  | here {x y z : Tree} :
      Reassociates (.sequence (.sequence x y) z) (.sequence x (.sequence y z))
  | sequenceFirst {x x' y : Tree} :
      Reassociates x x' → Reassociates (.sequence x y) (.sequence x' y)
  | sequenceSecond {x y y' : Tree} :
      Reassociates y y' → Reassociates (.sequence x y) (.sequence x y')
  | alternativeFirst {x x' y : Tree} :
      Reassociates x x' → Reassociates (.alternative x y) (.alternative x' y)
  | alternativeSecond {x y y' : Tree} :
      Reassociates y y' → Reassociates (.alternative x y) (.alternative x y')
  | star {x x' : Tree} : Reassociates x x' → Reassociates (.star x) (.star x')
  | optional {x x' : Tree} : Reassociates x x' → Reassociates (.optional x) (.optional x')

/-- `u` is `t` re-associated as long as it is possible. -/
def Exhausted (t u : Tree) : Prop := ReflTransGen Reassociates t u ∧ ∀ v, ¬ Reassociates u v

variable {t u v x x' y y' z : Tree}

/-! ## Re-association ends -/

/-- Counts the first part of a sequence twice. -/
def weight : Tree → Nat
  | literal _ => 1
  | sequence x y => 2 * x.weight + y.weight
  | alternative x y => x.weight + y.weight
  | star x | optional x => x.weight

theorem weight_pos (t : Tree) : 0 < t.weight := by
  induction t with
  | literal _ => exact Nat.one_pos
  | sequence x y hx hy | alternative x y hx hy =>
    simp only [weight]
    omega
  | star x hx | optional x hx => exact hx

theorem weight_lt_of_reassociates (h : Reassociates t u) : u.weight < t.weight := by
  induction h with
  | @here x y z =>
    have := x.weight_pos
    simp only [weight]
    omega
  | sequenceFirst _ ih | sequenceSecond _ ih | alternativeFirst _ ih | alternativeSecond _ ih =>
    simp only [weight]
    omega
  | star _ ih | optional _ ih => exact ih

/-- **Re-association cannot go on for ever.** -/
theorem wellFounded_reassociates : WellFounded fun u t => Reassociates t u :=
  Subrelation.wf weight_lt_of_reassociates (measure weight).wf

/-! ## The tree nested to the right -/

/-- `t` followed by `u`, where the sequence of `t` goes on with `u`. -/
def followedBy (t u : Tree) : Tree :=
  match t with
  | sequence x y => .sequence x (y.followedBy u)
  | t => .sequence t u

/-- The tree with all sequences nested to the right. -/
def rightNest : Tree → Tree
  | literal c => .literal c
  | sequence x y => x.rightNest.followedBy y.rightNest
  | alternative x y => .alternative x.rightNest y.rightNest
  | star x => .star x.rightNest
  | optional x => .optional x.rightNest

def isSequence : Tree → Bool
  | sequence _ _ => true
  | _ => false

/-- No first part of a sequence is a sequence. -/
def RightNested : Tree → Prop
  | literal _ => True
  | sequence x y => x.isSequence = false ∧ x.RightNested ∧ y.RightNested
  | alternative x y => x.RightNested ∧ y.RightNested
  | star x | optional x => x.RightNested

theorem followedBy_assoc (x y z : Tree) :
    (x.followedBy y).followedBy z = x.followedBy (y.followedBy z) := by
  induction x with
  | sequence _ x₂ _ ih => simp only [followedBy, ih]
  | _ => rfl

theorem rightNested_followedBy (ht : t.RightNested) (hu : u.RightNested) :
    (t.followedBy u).RightNested := by
  induction t with
  | sequence x y _ ih =>
    obtain ⟨hseq, hx, hy⟩ := ht
    exact ⟨hseq, hx, ih hy⟩
  | _ => exact ⟨rfl, ht, hu⟩

theorem rightNested_rightNest (t : Tree) : t.rightNest.RightNested := by
  induction t with
  | literal c => trivial
  | sequence x y hx hy => exact rightNested_followedBy hx hy
  | alternative x y hx hy => exact ⟨hx, hy⟩
  | star x hx | optional x hx => exact hx

/-! ### It is where re-association ends -/

theorem not_reassociates_of_rightNested (h : t.RightNested) : ¬ Reassociates t u := by
  intro hr
  induction hr with
  | here => cases h.1
  | sequenceFirst _ ih => exact ih h.2.1
  | sequenceSecond _ ih => exact ih h.2.2
  | alternativeFirst _ ih => exact ih h.1
  | alternativeSecond _ ih => exact ih h.2
  | star _ ih | optional _ ih => exact ih h

theorem reassociates_sequence (hx : ReflTransGen Reassociates x x')
    (hy : ReflTransGen Reassociates y y') :
    ReflTransGen Reassociates (.sequence x y) (.sequence x' y') :=
  (hx.lift (Tree.sequence · y) fun _ _ h => .sequenceFirst h).trans
    (hy.lift (Tree.sequence x' ·) fun _ _ h => .sequenceSecond h)

theorem reassociates_followedBy (t u : Tree) :
    ReflTransGen Reassociates (.sequence t u) (t.followedBy u) := by
  induction t with
  | sequence x y _ ih =>
    exact .head .here (reassociates_sequence .refl ih)
  | _ => exact .refl

/-- Every tree can be re-associated to the one nested to the right. -/
theorem reassociates_rightNest (t : Tree) : ReflTransGen Reassociates t t.rightNest := by
  induction t with
  | literal c => exact .refl
  | sequence x y hx hy =>
    exact (reassociates_sequence hx hy).trans (reassociates_followedBy _ _)
  | alternative x y hx hy =>
    exact (hx.lift (Tree.alternative · y) fun _ _ h => .alternativeFirst h).trans
      (hy.lift (Tree.alternative x.rightNest ·) fun _ _ h => .alternativeSecond h)
  | star x hx => exact hx.lift Tree.star fun _ _ h => .star h
  | optional x hx => exact hx.lift Tree.optional fun _ _ h => .optional h

theorem rightNest_eq_of_reassociates (h : Reassociates t u) : t.rightNest = u.rightNest := by
  induction h with
  | here => simp only [rightNest, followedBy_assoc]
  | sequenceFirst _ ih | sequenceSecond _ ih | alternativeFirst _ ih | alternativeSecond _ ih
  | star _ ih | optional _ ih => simp only [rightNest, ih]

theorem rightNest_eq_of_chain (h : ReflTransGen Reassociates t u) :
    t.rightNest = u.rightNest := by
  induction h with
  | refl => rfl
  | tail _ hs ih => exact ih.trans (rightNest_eq_of_reassociates hs)

/-- A tree that cannot be re-associated is nested to the right already. -/
theorem rightNest_of_not_reassociates (h : ∀ v, ¬ Reassociates t v) : t.rightNest = t := by
  rcases (reassociates_rightNest t).cases_head with heq | ⟨v, hv, -⟩
  · exact heq.symm
  · exact absurd hv (h v)

/-- **Re-association, done as long as it is possible, nests all sequences to the right.** -/
theorem exhausted_iff : Exhausted t u ↔ u = t.rightNest := by
  constructor
  · rintro ⟨htu, hu⟩
    rw [rightNest_eq_of_chain htu, rightNest_of_not_reassociates hu]
  · rintro rfl
    exact ⟨reassociates_rightNest t, fun v =>
      not_reassociates_of_rightNested (rightNested_rightNest t)⟩

end PatternAutomata.Tree
