import PatternAutomata.Pattern.Ends
import PatternAutomata.Proofs.Language
import PatternAutomata.Proofs.Reachability
/-!
# The matcher on the tree is exact

A position is found exactly when a word of the language of the tree stands in the input between a
start and it (`Tree.mem_endsFrom`), so the whole input is a match exactly when it belongs to the
language (`Tree.isMatch_iff`). For a star the search steps from position to position; empty words of
the body take it nowhere and are left out.
-/
namespace PatternAutomata

open Relation (ReflTransGen)

/-- The word `u` stands in `input` from position `i` up to position `j`. -/
def Spans (input : List Char) (i : Nat) (u : List Char) (j : Nat) : Prop :=
  u <+: input.drop i ∧ j = i + u.length

section
variable {input u v : List Char} {i j : Nat}

theorem spans_nil : Spans input i [] j ↔ j = i := by
  simp [Spans]

theorem spans_append : Spans input i (u ++ v) j ↔ ∃ k, Spans input i u k ∧ Spans input k v j := by
  unfold Spans
  constructor
  · rintro ⟨⟨rest, hrest⟩, hj⟩
    refine ⟨i + u.length, ⟨⟨v ++ rest, by simpa using hrest⟩, rfl⟩, ⟨rest, ?_⟩, ?_⟩
    · rw [← List.drop_drop, ← hrest, List.append_assoc, List.drop_left]
    · rw [hj, List.length_append, Nat.add_assoc]
  · rintro ⟨k, ⟨⟨rest, hrest⟩, rfl⟩, ⟨rest', hrest'⟩, rfl⟩
    refine ⟨⟨rest', ?_⟩, ?_⟩
    · rw [← List.drop_drop, ← hrest, List.drop_left] at hrest'
      rw [List.append_assoc, hrest', hrest]
    · rw [List.length_append, Nat.add_assoc]

theorem Spans.lt_of_ne_nil (h : Spans input i u j) (hu : u ≠ []) : j < input.length + 1 := by
  have hlength : u.length ≤ (input.drop i).length := h.1.length_le
  have hpos : 0 < u.length := List.length_pos_iff.mpr hu
  rw [List.length_drop] at hlength
  rw [h.2]
  omega

theorem spans_singleton {c : Char} :
    Spans input i [c] j ↔ input[i]? = some c ∧ j = i + 1 := by
  unfold Spans
  refine and_congr ?_ Iff.rfl
  rw [← List.head?_drop]
  cases input.drop i with
  | nil => simp
  | cons d rest => simp [eq_comm]

end

namespace Tree

/-- Words of the language of `t` lead from position to position. -/
def Leads (t : Tree) (input : List Char) (i j : Nat) : Prop :=
  ∃ u, t.Matches u ∧ Spans input i u j

section
variable {x y : Tree} {input w : List Char} {i j : Nat}

theorem leads_literal {c : Char} :
    (literal c).Leads input i j ↔ input[i]? = some c ∧ j = i + 1 := by
  simp only [Leads, matches_literal_iff, exists_eq_left, spans_singleton]

theorem leads_sequence :
    (sequence x y).Leads input i j ↔ ∃ k, x.Leads input i k ∧ y.Leads input k j := by
  constructor
  · rintro ⟨w, hw, hspan⟩
    obtain ⟨u, v, rfl, hu, hv⟩ := matches_sequence_iff.mp hw
    obtain ⟨k, hik, hkj⟩ := spans_append.mp hspan
    exact ⟨k, ⟨u, hu, hik⟩, v, hv, hkj⟩
  · rintro ⟨k, ⟨u, hu, hik⟩, v, hv, hkj⟩
    exact ⟨u ++ v, .sequence hu hv, spans_append.mpr ⟨k, hik, hkj⟩⟩

theorem leads_alternative :
    (alternative x y).Leads input i j ↔ x.Leads input i j ∨ y.Leads input i j := by
  simp only [Leads, matches_alternative_iff, or_and_right, exists_or]

theorem leads_optional : (optional x).Leads input i j ↔ j = i ∨ x.Leads input i j := by
  simp only [Leads, matches_optional_iff, or_and_right, exists_or, exists_eq_left, spans_nil]

theorem leads_star_of_chain (h : ReflTransGen (StepBelow (input.length + 1) (x.Leads input)) i j) :
    (star x).Leads input i j := by
  induction h with
  | refl => exact ⟨[], .finished, spans_nil.mpr rfl⟩
  | tail _ hstep ih =>
    obtain ⟨u, hu, hspan⟩ := ih
    obtain ⟨⟨v, hv, hspan'⟩, -⟩ := hstep
    refine ⟨u ++ v, ?_, spans_append.mpr ⟨_, hspan, hspan'⟩⟩
    exact matches_star_iff.mpr ((matches_star_iff.mp hu).snoc hv)

theorem chain_of_spans_flatten {ws : List (List Char)} (hws : ∀ u ∈ ws, x.Matches u)
    (h : Spans input i ws.flatten j) :
    ReflTransGen (StepBelow (input.length + 1) (x.Leads input)) i j := by
  induction ws generalizing i with
  | nil =>
    obtain rfl : j = i := spans_nil.mp h
    exact .refl
  | cons u ws ih =>
    have hrest : ∀ v ∈ ws, x.Matches v := fun v hv => hws v (List.mem_cons_of_mem _ hv)
    obtain ⟨k, hik, hkj⟩ := spans_append.mp h
    by_cases hu : u = []
    · subst hu
      obtain rfl : k = i := spans_nil.mp hik
      exact ih hrest hkj
    · have hstep : x.Leads input i k := ⟨u, hws u List.mem_cons_self, hik⟩
      exact .head ⟨hstep, hik.lt_of_ne_nil hu⟩ (ih hrest hkj)

theorem leads_star :
    (star x).Leads input i j ↔ ReflTransGen (StepBelow (input.length + 1) (x.Leads input)) i j := by
  constructor
  · rintro ⟨w, hw, hspan⟩
    obtain ⟨ws, rfl, hws⟩ := matches_star_iff.mp hw
    exact chain_of_spans_flatten hws hspan
  · exact leads_star_of_chain

end

variable {t : Tree} {input w : List Char} {starts : IndexSet} {j : Nat}

/-- **Where matches end.** Exactly the positions are found that a word of the language leads to
from a start. -/
theorem mem_endsFrom : j ∈ t.endsFrom input starts ↔ ∃ i ∈ starts, t.Leads input i j := by
  induction t generalizing starts j with
  | literal c =>
    simp only [endsFrom, IndexSet.mem_image, leads_literal]
    refine exists_congr fun i => and_congr_right fun _ => ?_
    split <;> simp_all
  | sequence x y hx hy =>
    simp only [endsFrom, hy, hx, leads_sequence]
    constructor
    · rintro ⟨k, ⟨i, hi, hik⟩, hkj⟩
      exact ⟨i, hi, k, hik, hkj⟩
    · rintro ⟨i, hi, k, hik, hkj⟩
      exact ⟨k, ⟨i, hi, hik⟩, hkj⟩
  | alternative x y hx hy =>
    simp only [endsFrom, IndexSet.mem_union, hx, hy, leads_alternative, and_or_left, exists_or]
  | optional x hx =>
    simp only [endsFrom, IndexSet.mem_union, hx, leads_optional, and_or_left, exists_or]
    simp
  | star x hx =>
    simp only [leads_star]
    exact mem_reach fun s i => hx

theorem isMatch_iff : t.isMatch w = true ↔ t.Matches w := by
  rw [isMatch, ends, decide_eq_true_eq, mem_endsFrom]
  simp only [IndexSet.mem_ofList, List.mem_singleton, exists_eq_left, Leads, Spans, List.drop_zero,
    Nat.zero_add]
  constructor
  · rintro ⟨u, hu, hprefix, hlength⟩
    rwa [← hprefix.eq_of_length hlength.symm]
  · intro h
    exact ⟨w, h, List.prefix_rfl, rfl⟩

end Tree
end PatternAutomata
