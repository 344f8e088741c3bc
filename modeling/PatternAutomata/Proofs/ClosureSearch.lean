import PatternAutomata.Proofs.ThompsonEdges
/-!
# Closures, one state at a time

`closure` starts from a set and follows a whole frontier at once. A closure can also be collected
one index at a time: the indices are given as a list, in any order and however often, those that are
new wait on a stack, and following the one on top may push others (`Drains`). An index that is no
state is found like any other; no edge leaves it.

In an automaton that can be built this comes to an end, with the indices that edges which consume
nothing lead to from a given one (`closure_exact`). A push that is new takes one index from those
left to be found and adds one to the stack, so the sum of the two goes down with every index that is
followed.
-/
namespace PatternAutomata

open Relation (ReflTransGen)

namespace Nfa

/-! ## The loop -/

/-- The indices found so far, and those of them that have still to be followed. -/
structure Pending where
  found : IndexSet
  stack : List Nat

namespace Pending

/-- `q` is found; it has to be followed if it is new. -/
def push (p : Pending) (q : Nat) : Pending :=
  if q ∈ p.found then p else ⟨p.found.insert q, q :: p.stack⟩

/-- All of `qs` are found, one after the other. -/
def pushAll (p : Pending) (qs : List Nat) : Pending := qs.foldl push p

/-- Only the given indices have been found. -/
def ofList (ids : List Nat) : Pending := pushAll ⟨.empty, []⟩ ids

end Pending

/-- The indices on the stack are followed, the last one pushed first, and this ends with `out`. -/
inductive Drains (a : Nfa) : Pending → IndexSet → Prop
  | done {found : IndexSet} : Drains a ⟨found, []⟩ found
  | follow {found out : IndexSet} {q : Nat} {rest : List Nat} :
      Drains a (Pending.pushAll ⟨found, rest⟩ (a.targets .epsilon q)) out →
      Drains a ⟨found, q :: rest⟩ out

/-! ## Pushing -/

namespace Pending

variable {p : Pending} {q i bound : Nat} {qs : List Nat}

@[simp] theorem mem_found_push : i ∈ (p.push q).found ↔ i ∈ p.found ∨ i = q := by
  unfold push
  split
  · next hq =>
    constructor
    · exact .inl
    · rintro (hi | rfl)
      · exact hi
      · exact hq
  · rw [IndexSet.mem_insert, or_comm]

@[simp] theorem mem_stack_push : i ∈ (p.push q).stack ↔ i ∈ p.stack ∨ i = q ∧ i ∉ p.found := by
  unfold push
  split
  · next hq =>
    constructor
    · exact .inl
    · rintro (hi | ⟨rfl, hnew⟩)
      · exact hi
      · exact absurd hq hnew
  · next hq =>
    rw [List.mem_cons, or_comm]
    refine or_congr_right ?_
    constructor
    · rintro rfl
      exact ⟨rfl, hq⟩
    · exact And.left

theorem mem_found_pushAll : i ∈ (p.pushAll qs).found ↔ i ∈ p.found ∨ i ∈ qs := by
  induction qs generalizing p with
  | nil => simp [pushAll]
  | cons q qs ih =>
    refine ih.trans ?_
    rw [mem_found_push, List.mem_cons, or_assoc]

theorem mem_stack_pushAll :
    i ∈ (p.pushAll qs).stack ↔ i ∈ p.stack ∨ i ∈ qs ∧ i ∉ p.found := by
  induction qs generalizing p with
  | nil => simp [pushAll]
  | cons q qs ih =>
    refine ih.trans ?_
    rw [mem_stack_push, mem_found_push, List.mem_cons]
    by_cases hi : i = q
    · subst hi
      simp
    · simp [hi]

/-- The indices left to be found below the bound, and those left to be followed. -/
def left (bound : Nat) (p : Pending) : Nat := unseen bound p.found + p.stack.length

theorem left_push_le (hq : q < bound) : left bound (p.push q) ≤ left bound p := by
  unfold left push
  split
  · exact Nat.le_refl _
  · next hnew =>
    have hlt : unseen bound (p.found.insert q) < unseen bound p.found :=
      unseen_lt_unseen (fun i hi => IndexSet.mem_insert.mpr (.inr hi)) hq hnew
        (IndexSet.mem_insert.mpr (.inl rfl))
    show unseen bound (p.found.insert q) + (p.stack.length + 1) ≤ _
    omega

theorem left_pushAll_le (hqs : ∀ q ∈ qs, q < bound) : left bound (p.pushAll qs) ≤ left bound p := by
  induction qs generalizing p with
  | nil => exact Nat.le_refl _
  | cons q qs ih =>
    have hrest := ih (p := p.push q) fun r hr => hqs r (List.mem_cons_of_mem _ hr)
    exact Nat.le_trans hrest (left_push_le (hqs q List.mem_cons_self))

/-- What has to be followed is found, and the edges from what is followed lead to what is found. -/
structure Closing (a : Nfa) (p : Pending) : Prop where
  stacked : ∀ q ∈ p.stack, q ∈ p.found
  followed : ∀ q ∈ p.found, q ∉ p.stack → ∀ r, a.Step q .epsilon r → r ∈ p.found

variable {a : Nfa} {found : IndexSet} {rest ids : List Nat}

theorem mem_found_ofList : i ∈ (ofList ids).found ↔ i ∈ ids := by
  rw [ofList, mem_found_pushAll]
  simp

theorem closing_ofList (a : Nfa) (ids : List Nat) : (ofList ids).Closing a := by
  have hstack : ∀ q, q ∈ (ofList ids).stack ↔ q ∈ (ofList ids).found := by
    intro q
    rw [mem_found_ofList, ofList, mem_stack_pushAll]
    simp
  refine ⟨fun q hq => (hstack q).mp hq, fun q hq hns => ?_⟩
  exact absurd ((hstack q).mpr hq) hns

/-- Following an index keeps this up. -/
theorem Closing.follow (h : Closing a ⟨found, q :: rest⟩) :
    (pushAll ⟨found, rest⟩ (a.targets .epsilon q)).Closing a := by
  constructor
  · intro r hr
    rw [mem_stack_pushAll] at hr
    rw [mem_found_pushAll]
    rcases hr with hr | ⟨hr, -⟩
    · exact .inl (h.stacked r (List.mem_cons_of_mem _ hr))
    · exact .inr hr
  · intro r hr hns s hs
    rw [mem_found_pushAll] at hr ⊢
    rw [mem_stack_pushAll, not_or] at hns
    obtain ⟨hrest, hold⟩ := hns
    by_cases hrq : r = q
    · subst hrq
      exact .inr (mem_targets.mpr hs)
    · have hfound : r ∈ found := by
        rcases hr with hr | hr
        · exact hr
        · exact Decidable.byContradiction fun hnew => hold ⟨hr, hnew⟩
      have hoff : r ∉ q :: rest := by
        rw [List.mem_cons, not_or]
        exact ⟨hrq, hrest⟩
      exact .inl (h.followed r hfound hoff s hs)

end Pending

/-! ## What the loop ends with -/

section
variable {a : Nfa} {p : Pending} {out : IndexSet} {ids : List Nat} {i : Nat}

/-- **The loop comes to an end.** -/
theorem exists_drains (ha : a.Closed) (p : Pending) : ∃ out, a.Drains p out := by
  induction hn : p.left a.size using Nat.strongRecOn generalizing p with
  | ind n ih =>
    obtain ⟨found, stack⟩ := p
    cases stack with
    | nil => exact ⟨found, .done⟩
    | cons q rest =>
      have htargets : ∀ r ∈ a.targets .epsilon q, r < a.size := fun r hr =>
        ha q .epsilon r (mem_targets.mp hr)
      have hle := Pending.left_pushAll_le (p := ⟨found, rest⟩) htargets
      have hlt : Pending.left a.size ⟨found, rest⟩ < n := by
        rw [← hn]
        exact Nat.lt_succ_self _
      obtain ⟨out, hout⟩ := ih _ (Nat.lt_of_le_of_lt hle hlt) _ rfl
      exact ⟨out, .follow hout⟩

/-- **The loop finds what chains of edges lead to** from what was found before. -/
theorem mem_of_drains (h : a.Drains p out) (hp : p.Closing a) :
    i ∈ out ↔ ∃ q ∈ p.found, ReflTransGen (fun q r => a.Step q .epsilon r) q i := by
  induction h with
  | @done found =>
    constructor
    · intro hi
      exact ⟨i, hi, .refl⟩
    · rintro ⟨q, hq, hqi⟩
      induction hqi with
      | refl => exact hq
      | tail _ hstep ih => exact hp.followed _ ih List.not_mem_nil _ hstep
  | @follow found out q rest _ ih =>
    rw [ih hp.follow]
    constructor
    · rintro ⟨r, hr, hri⟩
      rw [Pending.mem_found_pushAll] at hr
      rcases hr with hr | hr
      · exact ⟨r, hr, hri⟩
      · exact ⟨q, hp.stacked q List.mem_cons_self, .head (mem_targets.mp hr) hri⟩
    · rintro ⟨r, hr, hri⟩
      exact ⟨r, Pending.mem_found_pushAll.mpr (.inl hr), hri⟩

theorem mem_closure_ofList (ha : a.Closed) :
    i ∈ a.closure (.ofList ids) ↔ ∃ q ∈ ids, ReflTransGen (fun q r => a.Step q .epsilon r) q i := by
  rw [mem_closure ha]
  simp only [IndexSet.mem_ofList]

/-- **Collected one index at a time, the closure is the same.** -/
theorem drains_iff (ha : a.Closed) :
    a.Drains (.ofList ids) out ↔ out = a.closure (.ofList ids) := by
  have hsame : ∀ s, a.Drains (.ofList ids) s → s = a.closure (.ofList ids) := by
    intro s hs
    ext i
    rw [mem_of_drains hs (Pending.closing_ofList a ids), mem_closure_ofList ha]
    simp only [Pending.mem_found_ofList]
  constructor
  · exact hsame out
  · rintro rfl
    obtain ⟨s, hs⟩ := exists_drains ha (.ofList ids)
    rwa [← hsame s hs]

end

/-! ## Laws of closures -/

/-- `f` is a closure operator that can be taken member by member. -/
structure IsClosure (f : IndexSet → IndexSet) : Prop where
  extensive : ∀ s, ∀ i ∈ s, i ∈ f s
  monotone : ∀ s t, (∀ i ∈ s, i ∈ t) → ∀ i ∈ f s, i ∈ f t
  idempotent : ∀ s, f (f s) = f s
  union : ∀ s t, f (s.union t) = (f s).union (f t)

theorem Closed.isClosure {a : Nfa} (ha : a.Closed) : IsClosure a.closure where
  extensive := fun s i hi => (mem_closure ha).mpr ⟨i, hi, .refl⟩
  monotone := by
    intro s t hst i hi
    obtain ⟨q, hq, hqi⟩ := (mem_closure ha).mp hi
    exact (mem_closure ha).mpr ⟨q, hst q hq, hqi⟩
  idempotent := by
    intro s
    ext i
    simp only [mem_closure ha]
    constructor
    · rintro ⟨r, ⟨q, hq, hqr⟩, hri⟩
      exact ⟨q, hq, hqr.trans hri⟩
    · rintro ⟨q, hq, hqi⟩
      exact ⟨i, ⟨q, hq, hqi⟩, .refl⟩
  union := by
    intro s t
    ext i
    simp only [IndexSet.mem_union, mem_closure ha, or_and_right, exists_or]

/-- **Closures are exact.** In an automaton that can be built, collecting the closure of any indices
ends, with one set: that of the indices which a chain of edges that consume nothing leads to from a
given one. So neither their order nor their multiplicity matters, and taking the closure is a
closure operator. -/
theorem closure_exact {a : Nfa} (ha : a.Built) :
    (∀ ids out, a.Drains (.ofList ids) out ↔ out = a.closure (.ofList ids)) ∧
    (∀ ids i, i ∈ a.closure (.ofList ids) ↔
      ∃ q ∈ ids, ReflTransGen (fun q r => a.Step q .epsilon r) q i) ∧
    (∀ ids ids', (∀ q, q ∈ ids ↔ q ∈ ids') →
      ∀ out, a.Drains (.ofList ids) out ↔ a.Drains (.ofList ids') out) ∧
    IsClosure a.closure := by
  have hclosed : a.Closed := ha.shaped.closed
  refine ⟨fun ids out => drains_iff hclosed, fun ids i => mem_closure_ofList hclosed, ?_,
    hclosed.isClosure⟩
  intro ids ids' hids out
  have hset : IndexSet.ofList ids = .ofList ids' := by
    ext q
    rw [IndexSet.mem_ofList, IndexSet.mem_ofList, hids]
  rw [drains_iff hclosed, drains_iff hclosed, hset]

/-- Two stars, so the edges run in a circle; state 3 is given twice, and 7 is no state. -/
theorem closure_exact_nested :
    (symbol 'a').star.star.Built ∧
      (symbol 'a').star.star.Drains (.ofList [3, 7, 3]) (.ofList [0, 1, 2, 3, 4, 5, 7]) ∧
      ∃ q ∈ [3, 7, 3], ReflTransGen (fun q r => (symbol 'a').star.star.Step q .epsilon r) q 2 := by
  have hbuilt : (symbol 'a').star.star.Built := .star (.star (.symbol 'a'))
  obtain ⟨hdrains, hmem, -⟩ := closure_exact hbuilt
  have hclosure : .ofList [0, 1, 2, 3, 4, 5, 7] =
      (symbol 'a').star.star.closure (.ofList [3, 7, 3]) := by
    cbv
  have htwo : 2 ∈ (symbol 'a').star.star.closure (.ofList [3, 7, 3]) := by
    rw [← hclosure]
    decide
  exact ⟨hbuilt, (hdrains _ _).mpr hclosure, (hmem _ 2).mp htwo⟩

end Nfa
end PatternAutomata
