import Mathlib.Tactic.Choose
import Mathlib.Tactic.Tauto
import PatternAutomata.Proofs.EndPositions
/-!
# Matching from one position

`endsFrom` follows the matches from all starts at once. They can also be followed one start at a
time: a sequence tries its second part from each end of the first, and a star keeps a stack of the
positions from which its body has still to be tried (`Search`). `Finds input t i found` says that
this comes to an end and that `found` are the ends it has found.

It always comes to an end, with the positions of `ends` (`finds_iff`). The body of a star finds the
position it is tried from, which is known, or one that is not beyond the input, so that only
finitely many can be new. The positions are those up to which a word of the language stands in the
input (`ends_exact`).
-/
namespace PatternAutomata

open Relation (ReflTransGen)

/-! ## The loop of a star -/

/-- `Search body found stack out`: when the positions `found` are known and the body has still to be
tried from those on the stack, the loop ends with the positions `out`. `body i ends` says that the
body has the ends `ends` from `i`. Ends that are new are pushed in ascending order. -/
inductive Search (body : Nat → IndexSet → Prop) : IndexSet → List Nat → IndexSet → Prop
  | done {found : IndexSet} : Search body found [] found
  | follow {found ends out : IndexSet} {i : Nat} {rest : List Nat} :
      body i ends →
      Search body (found.union ends) ((ends.diff found).toList.reverse ++ rest) out →
      Search body found (i :: rest) out

/-- The body has ends from every position: those that `R` leads to. Each is the position itself or
lies below the bound. -/
structure EndsBelow (body : Nat → IndexSet → Prop) (R : Nat → Nat → Prop) (bound : Nat) : Prop where
  total : ∀ i, ∃ ends, body i ends
  mem_iff : ∀ {i ends}, body i ends → ∀ j, j ∈ ends ↔ R i j
  eq_or_lt : ∀ {i j}, R i j → j = i ∨ j < bound

namespace EndsBelow

variable {body : Nat → IndexSet → Prop} {R : Nat → Nat → Prop} {bound i j : Nat}
  {found ends out : IndexSet} {stack rest : List Nat} (h : EndsBelow body R bound)
include h

/-- From a known position, what is new is one step below the bound away. -/
theorem stepBelow_of_new (hi : i ∈ found) (hends : body i ends) (hj : j ∈ ends) (hnew : j ∉ found) :
    StepBelow bound R i j := by
  have hij : R i j := (h.mem_iff hends j).mp hj
  rcases h.eq_or_lt hij with rfl | hlt
  · exact absurd hi hnew
  · exact ⟨hij, hlt⟩

/-- Fewer positions are left to be found once a new one is known. -/
theorem unseen_union_lt (hi : i ∈ found) (hends : body i ends)
    (hne : ¬ (ends.diff found).isEmpty = true) :
    unseen bound (found.union ends) < unseen bound found := by
  obtain ⟨j, hj⟩ : ∃ j, j ∈ ends.diff found := by simpa [IndexSet.isEmpty_iff] using hne
  obtain ⟨hj, hnew⟩ := IndexSet.mem_diff.mp hj
  have hlt : j < bound := (h.stepBelow_of_new hi hends hj hnew).2
  exact unseen_lt_unseen (fun k hk => IndexSet.mem_union.mpr (.inl hk)) hlt hnew
    (IndexSet.mem_union.mpr (.inr hj))

/-- **The loop comes to an end.** -/
theorem exists_search (hstack : ∀ i ∈ stack, i ∈ found) : ∃ out, Search body found stack out := by
  -- by the positions left to be found, and where none is new by the height of the stack
  induction hn : unseen bound found using Nat.strongRecOn generalizing found stack with
  | ind n ihfound =>
    induction stack with
    | nil => exact ⟨found, .done⟩
    | cons i rest ihrest =>
      have hi : i ∈ found := hstack i List.mem_cons_self
      have hrest : ∀ k ∈ rest, k ∈ found := fun k hk => hstack k (List.mem_cons_of_mem _ hk)
      obtain ⟨ends, hends⟩ := h.total i
      by_cases hnew : (ends.diff found).isEmpty = true
      · obtain ⟨out, hout⟩ := ihrest hrest
        have hsame : found.union ends = found := by
          ext j
          have hj := IndexSet.isEmpty_iff.mp hnew j
          simp only [IndexSet.mem_union, IndexSet.mem_diff] at hj ⊢
          tauto
        have hnone : (ends.diff found).toList = [] := by
          refine List.eq_nil_iff_forall_not_mem.mpr fun j hj => ?_
          exact IndexSet.isEmpty_iff.mp hnew j (IndexSet.mem_toList.mp hj)
        refine ⟨out, .follow hends ?_⟩
        rw [hsame, hnone]
        exact hout
      · have hlt := h.unseen_union_lt hi hends hnew
        rw [hn] at hlt
        have hpushed : ∀ k ∈ (ends.diff found).toList.reverse ++ rest, k ∈ found.union ends := by
          intro k hk
          rw [IndexSet.mem_union]
          rcases List.mem_append.mp hk with hk | hk
          · have hk' : k ∈ ends.diff found := by simpa using hk
            exact .inr (IndexSet.mem_diff.mp hk').1
          · exact .inl (hrest k hk)
        obtain ⟨out, hout⟩ := ihfound _ hlt hpushed rfl
        exact ⟨out, .follow hends hout⟩

/-- **The loop finds what chains of steps lead to**, if the steps from every known position lead to
known ones or the position is on the stack. -/
theorem mem_of_search (hsearch : Search body found stack out) (hstack : ∀ i ∈ stack, i ∈ found)
    (hdone : ∀ i ∈ found, i ∈ stack ∨ ∀ j, StepBelow bound R i j → j ∈ found) :
    j ∈ out ↔ ∃ i ∈ found, ReflTransGen (StepBelow bound R) i j := by
  induction hsearch with
  | @done found =>
    constructor
    · intro hj
      exact ⟨j, hj, .refl⟩
    · rintro ⟨i, hi, hij⟩
      induction hij with
      | refl => exact hi
      | tail _ hstep ih => exact (hdone _ ih).resolve_left List.not_mem_nil _ hstep
  | @follow found ends out i rest hends _ ih =>
    have hi : i ∈ found := hstack i List.mem_cons_self
    rw [ih]
    · constructor
      · rintro ⟨k, hk, hkj⟩
        by_cases hkf : k ∈ found
        · exact ⟨k, hkf, hkj⟩
        · have hke : k ∈ ends := (IndexSet.mem_union.mp hk).resolve_left hkf
          exact ⟨i, hi, .head (h.stepBelow_of_new hi hends hke hkf) hkj⟩
      · rintro ⟨k, hk, hkj⟩
        exact ⟨k, IndexSet.mem_union.mpr (.inl hk), hkj⟩
    · intro k hk
      rw [IndexSet.mem_union]
      rcases List.mem_append.mp hk with hk | hk
      · have hk' : k ∈ ends.diff found := by simpa using hk
        exact .inr (IndexSet.mem_diff.mp hk').1
      · exact .inl (hstack k (List.mem_cons_of_mem _ hk))
    · intro k hk
      simp only [List.mem_append, List.mem_reverse, IndexSet.mem_toList, IndexSet.mem_diff,
        IndexSet.mem_union] at hk ⊢
      by_cases hkf : k ∈ found
      · rcases hdone k hkf with hks | hsteps
        · rcases List.mem_cons.mp hks with rfl | hks
          · -- the position at hand: its steps lead to the ends found just now
            exact .inr fun j hkj => .inr ((h.mem_iff hends j).mpr hkj.1)
          · exact .inl (.inr hks)
        · exact .inr fun j hkj => .inl (hsteps j hkj)
      · exact .inl (.inl ⟨hk.resolve_left hkf, hkf⟩)

end EndsBelow

/-! ## The matcher -/

namespace Tree

/-- A match of the tree is tried from `i`, and this ends with the positions `found`. -/
def Finds (input : List Char) : Tree → Nat → IndexSet → Prop
  | literal c, i, found => found = if input[i]? = some c then .ofList [i + 1] else .empty
  | sequence x y, i, found =>
    ∃ mids, x.Finds input i mids ∧ ∃ ends : Nat → IndexSet,
      (∀ k ∈ mids, y.Finds input k (ends k)) ∧ found = mids.image fun k => (ends k).toList
  | alternative x y, i, found =>
    ∃ s s', x.Finds input i s ∧ y.Finds input i s' ∧ found = s.union s'
  | optional x, i, found => ∃ s, x.Finds input i s ∧ found = s.insert i
  | star x, i, found => Search (x.Finds input) (.ofList [i]) [i] found

variable {t x y : Tree} {input : List Char} {found : IndexSet} {i j : Nat}

theorem leads_eq_or_lt (h : t.Leads input i j) : j = i ∨ j < input.length + 1 := by
  obtain ⟨u, -, hspan⟩ := h
  by_cases hu : u = []
  · subst hu
    exact .inl (spans_nil.mp hspan)
  · exact .inr (hspan.lt_of_ne_nil hu)

/-- What the loop of a star finds, if the body behaves. -/
theorem mem_of_finds_star (h : EndsBelow (x.Finds input) (x.Leads input) (input.length + 1))
    (hfound : (star x).Finds input i found) : j ∈ found ↔ (star x).Leads input i j := by
  have hstack : ∀ k ∈ [i], k ∈ IndexSet.ofList [i] := by simp
  have hdone : ∀ k ∈ IndexSet.ofList [i], k ∈ [i] ∨
      ∀ j, StepBelow (input.length + 1) (x.Leads input) k j → j ∈ IndexSet.ofList [i] :=
    fun k hk => .inl (IndexSet.mem_ofList.mp hk)
  rw [leads_star, h.mem_of_search hfound hstack hdone]
  simp

/-- **Every trial comes to an end, and it finds where words of the tree lead.** -/
theorem endsBelow_finds (t : Tree) (input : List Char) :
    EndsBelow (t.Finds input) (t.Leads input) (input.length + 1) := by
  induction t with
  | literal c =>
    refine ⟨fun i => ⟨_, rfl⟩, ?_, leads_eq_or_lt⟩
    rintro i _ rfl j
    rw [leads_literal]
    split <;> simp_all
  | sequence x y hx hy =>
    refine ⟨?_, ?_, leads_eq_or_lt⟩
    · intro i
      obtain ⟨mids, hmids⟩ := hx.total i
      choose ends hends using hy.total
      exact ⟨_, mids, hmids, ends, fun k _ => hends k, rfl⟩
    · rintro i _ ⟨mids, hmids, ends, hends, rfl⟩ j
      rw [leads_sequence, IndexSet.mem_image]
      simp only [IndexSet.mem_toList]
      refine exists_congr fun k => ?_
      rw [← hx.mem_iff hmids]
      exact and_congr_right fun hk => hy.mem_iff (hends k hk) j
  | alternative x y hx hy =>
    refine ⟨?_, ?_, leads_eq_or_lt⟩
    · intro i
      obtain ⟨s, hs⟩ := hx.total i
      obtain ⟨s', hs'⟩ := hy.total i
      exact ⟨_, s, s', hs, hs', rfl⟩
    · rintro i _ ⟨s, s', hs, hs', rfl⟩ j
      rw [IndexSet.mem_union, leads_alternative, hx.mem_iff hs, hy.mem_iff hs']
  | optional x hx =>
    refine ⟨?_, ?_, leads_eq_or_lt⟩
    · intro i
      obtain ⟨s, hs⟩ := hx.total i
      exact ⟨_, s, hs, rfl⟩
    · rintro i _ ⟨s, hs, rfl⟩ j
      rw [IndexSet.mem_insert, leads_optional, hx.mem_iff hs]
  | star x hx =>
    refine ⟨fun i => hx.exists_search (by simp), ?_, leads_eq_or_lt⟩
    intro i found hfound j
    exact mem_of_finds_star hx hfound

theorem mem_ends : j ∈ t.ends input i ↔ t.Leads input i j := by
  rw [ends, mem_endsFrom]
  simp

/-- **Trying a match from one position ends with the positions of `ends`.** -/
theorem finds_iff : t.Finds input i found ↔ found = t.ends input i := by
  have h := t.endsBelow_finds input
  have hsame : ∀ s, t.Finds input i s → s = t.ends input i := by
    intro s hs
    ext j
    rw [h.mem_iff hs, mem_ends]
  constructor
  · exact hsame found
  · rintro rfl
    obtain ⟨s, hs⟩ := h.total i
    rwa [← hsame s hs]

/-- A word of the tree leads on if it stands between the two positions. -/
theorem leads_iff (hi : i ≤ input.length) :
    t.Leads input i j ↔
      i ≤ j ∧ j ≤ input.length ∧ t.Matches ((input.drop i).take (j - i)) := by
  constructor
  · rintro ⟨u, hu, hprefix, rfl⟩
    have hlength := hprefix.length_le
    rw [List.length_drop] at hlength
    refine ⟨by omega, by omega, ?_⟩
    rwa [Nat.add_sub_cancel_left, ← List.prefix_iff_eq_take.mp hprefix]
  · rintro ⟨hij, hj, hmatches⟩
    refine ⟨_, hmatches, List.take_prefix _ _, ?_⟩
    rw [List.length_take, List.length_drop]
    omega

/-- **The ends of matches are exact.** Trying a match from a position of the input comes to an end,
with one set of positions; these are the ends of the slices from there that belong to the language.
So the input is a match if it belongs to the language as a whole. -/
theorem ends_exact (t : Tree) {input : List Char} {start : Nat} (h : start ≤ input.length) :
    (∀ found, t.Finds input start found ↔ found = t.ends input start) ∧
    (∀ e, e ∈ t.ends input start ↔
      start ≤ e ∧ e ≤ input.length ∧ t.Matches ((input.drop start).take (e - start))) ∧
    (t.isMatch input = true ↔ t.Matches input) := by
  refine ⟨fun found => finds_iff, ?_, isMatch_iff⟩
  intro e
  rw [mem_ends, leads_iff h]

/-- The body of the star is a star, so it finds every position again from which it is tried. -/
theorem ends_exact_nullable :
    1 ≤ ['b', 'a', 'a', 'c'].length ∧
      (star (star (literal 'a'))).Finds ['b', 'a', 'a', 'c'] 1 (.ofList [1, 2, 3]) ∧
      (star (star (literal 'a'))).Matches ((['b', 'a', 'a', 'c'].drop 1).take (3 - 1)) := by
  have hstart : 1 ≤ ['b', 'a', 'a', 'c'].length := by decide
  obtain ⟨hfinds, hmem, -⟩ := ends_exact (star (star (literal 'a'))) hstart
  have hends : .ofList [1, 2, 3] = (star (star (literal 'a'))).ends ['b', 'a', 'a', 'c'] 1 := by
    cbv
  have hthree : 3 ∈ (star (star (literal 'a'))).ends ['b', 'a', 'a', 'c'] 1 := by
    rw [← hends]
    decide
  exact ⟨hstart, (hfinds _).mpr hends, ((hmem 3).mp hthree).2.2⟩

end Tree
end PatternAutomata
