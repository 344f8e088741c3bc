import Mathlib.Data.List.Forall2
import PatternAutomata.Proofs.SubsetConstruction
/-!
# Numbers do not depend on what the states are

Two machines are alike if their states can be paired so that pairs move to pairs and are accepting
together, and no state is in two pairs (`Alike`). The searches for the states of such machines go in
lock-step: what is known and what is stacked stays paired, place by place
(`Alike.forall₂_discoverFrom`). So both machines give one and the same numbered automaton
(`Alike.toDfa_eq`), and two nondeterministic automata whose sets correspond give one deterministic
automaton (`Dfa.ofNfa_canonical`).
-/
namespace PatternAutomata

/-! ## Symbols that lead nowhere -/

namespace SymbolSet

variable {α β : Type} {S T : SymbolSet}

/-- Symbols for which a function gives nothing make no difference. -/
theorem filterMap_eq_of_subset {f : Char → Option α} (hST : ∀ c, c ∈ S → c ∈ T)
    (hf : ∀ c, (f c).isSome = true → c ∈ S) : S.toList.filterMap f = T.toList.filterMap f := by
  have hS : S.toList = T.toList.filter fun c => decide (c ∈ S) := by
    refine eq_of_ascending S.ascending (T.ascending.filter _) fun c => ?_
    simp only [List.mem_filter, mem_toList, decide_eq_true_eq]
    constructor
    · intro hc
      exact ⟨hST c hc, hc⟩
    · intro hc
      exact hc.2
  rw [hS, List.filterMap_filter]
  refine List.filterMap_congr fun c _ => ?_
  by_cases hc : c ∈ S
  · simp [hc]
  · have hnone : f c = none := by
      simpa using fun h => hc (hf c h)
    simp [hnone]

/-- Functions that give pairs give them in the same order, whichever other symbols are looked at. -/
theorem forall₂_filterMap {R : α → β → Prop} {f : Char → Option α} {g : Char → Option β}
    (hf : ∀ c, (f c).isSome = true → c ∈ S) (hg : ∀ c, (g c).isSome = true → c ∈ T)
    (hfg : ∀ c, Option.Rel R (f c) (g c)) :
    List.Forall₂ R (S.toList.filterMap f) (T.toList.filterMap g) := by
  have hS : ∀ c, c ∈ S → c ∈ S.union T := fun c hc => mem_union.mpr (.inl hc)
  have hT : ∀ c, c ∈ T → c ∈ S.union T := fun c hc => mem_union.mpr (.inr hc)
  rw [filterMap_eq_of_subset hS hf, filterMap_eq_of_subset hT hg]
  induction (S.union T).toList with
  | nil => exact .nil
  | cons c cs ih =>
    have hc := hfg c
    rw [List.filterMap_cons, List.filterMap_cons]
    generalize f c = x at hc
    generalize g c = y at hc
    cases hc with
    | none => exact ih
    | some h => exact .cons h ih

end SymbolSet

namespace Machine

variable {σ τ : Type} {m : Machine σ} {n : Machine τ} {R : σ → τ → Prop}

theorem Covered.of_isSome (hm : m.Covered) {s : σ} (c : Char) (h : (m.next s c).isSome = true) :
    c ∈ m.symbols := by
  obtain ⟨t, ht⟩ := Option.isSome_iff_exists.mp h
  exact hm s c t ht

/-! ## Two searches in lock-step -/

/-- The pairs in `R` relate states in which two machines do the same. -/
structure Alike (m : Machine σ) (n : Machine τ) (R : σ → τ → Prop) : Prop where
  start : R m.start n.start
  next : ∀ {s t}, R s t → ∀ c, Option.Rel R (m.next s c) (n.next t c)
  accepts : ∀ {s t}, R s t → m.accepts s = n.accepts t
  unique : Relator.BiUnique R

namespace Alike

variable (h : m.Alike n R) (hm : m.Covered) (hn : n.Covered)
  {s : σ} {t : τ} {known l : List σ} {known' l' : List τ}
include h

include hm hn in
theorem forall₂_successors (hst : R s t) :
    List.Forall₂ R (m.successors s) (n.successors t) :=
  SymbolSet.forall₂_filterMap hm.of_isSome hn.of_isSome (h.next hst)

variable [DecidableEq σ] [DecidableEq τ]

theorem forall₂_unknown (hk : List.Forall₂ R known known') (hl : List.Forall₂ R l l') :
    List.Forall₂ R (unknown known l) (unknown known' l') := by
  induction hl generalizing known known' with
  | nil => exact .nil
  | @cons s t l l' hst _ ih =>
    have hmem : s ∈ known ↔ t ∈ known' := List.rel_mem h.unique hst hk
    unfold unknown
    by_cases hs : s ∈ known
    · rw [if_pos hs, if_pos (hmem.mp hs)]
      exact ih hk
    · rw [if_neg hs, if_neg (mt hmem.mpr hs)]
      exact .cons hst (ih (List.rel_append hk (.cons hst .nil)))

include hm hn in
/-- **Both searches find paired states in the same order.** -/
theorem forall₂_discoverFrom (known stack : List σ) : ∀ known' stack',
    List.Forall₂ R known known' →
    List.Forall₂ R stack stack' →
    List.Forall₂ R (m.discoverFrom known stack) (n.discoverFrom known' stack') := by
  fun_induction Machine.discoverFrom m known stack with
  | case1 known =>
    intro known' stack' hk hs
    cases hs
    rw [Machine.discoverFrom]
    exact hk
  | case2 known s rest new hnew ih =>
    intro known' stack' hk hs
    cases hs with
    | @cons _ t _ rest' hst hrest =>
      have hnew' : (unknown known' (n.successors t)).isEmpty = true := by
        have hlength := (h.forall₂_unknown hk (h.forall₂_successors hm hn hst)).length_eq
        rw [List.isEmpty_iff_length_eq_zero] at hnew ⊢
        exact hlength.symm.trans hnew
      rw [Machine.discoverFrom]
      simp only [hnew', if_true]
      exact ih _ _ hk hrest
  | case3 known s rest new hnew ih =>
    intro known' stack' hk hs
    cases hs with
    | @cons _ t _ rest' hst hrest =>
      have hpairs := h.forall₂_unknown hk (h.forall₂_successors hm hn hst)
      have hnew' : ¬ (unknown known' (n.successors t)).isEmpty = true := by
        rw [List.isEmpty_iff_length_eq_zero] at hnew ⊢
        exact fun hzero => hnew (hpairs.length_eq.trans hzero)
      rw [Machine.discoverFrom]
      simp only [hnew']
      exact ih _ _ (List.rel_append hk hpairs)
        (List.rel_append (List.rel_reverse hpairs) hrest)

include hm hn in
theorem forall₂_discover : List.Forall₂ R m.discover n.discover :=
  h.forall₂_discoverFrom hm hn _ _ _ _ (.cons h.start .nil) (.cons h.start .nil)

/-! ## One numbered automaton -/

/-- Paired states have the same place. -/
theorem idxOf_eq (hk : List.Forall₂ R known known') (hst : R s t) :
    known.idxOf s = known'.idxOf t := by
  induction hk with
  | nil => rfl
  | @cons s' t' known known' hst' _ ih =>
    have heq : s' = s ↔ t' = t := Relator.rel_eq h.unique hst' hst
    by_cases hs : s' = s
    · obtain rfl := hs
      obtain rfl := heq.mp rfl
      simp
    · rw [List.idxOf_cons_ne _ hs, List.idxOf_cons_ne _ (mt heq.mpr hs), ih]

include hm hn in
theorem describe_eq (hk : List.Forall₂ R known known') (hst : R s t) :
    m.describe known s = n.describe known' t := by
  have hmoves : List.Forall₂ Eq
      (m.symbols.toList.filterMap fun c => (m.next s c).map fun u => (c, known.idxOf u))
      (n.symbols.toList.filterMap fun c => (n.next t c).map fun u => (c, known'.idxOf u)) := by
    refine SymbolSet.forall₂_filterMap (fun c hc => ?_) (fun c hc => ?_) fun c => ?_
    · exact hm.of_isSome c (by simpa using hc)
    · exact hn.of_isSome c (by simpa using hc)
    · have hc := h.next hst c
      generalize m.next s c = x at hc
      generalize n.next t c = y at hc
      cases hc with
      | none => exact .none
      | some hu =>
        rw [Option.map_some, Option.map_some, h.idxOf_eq hk hu]
        exact .some rfl
  rw [List.forall₂_eq_eq_eq] at hmoves
  simp only [describe, h.accepts hst, hmoves]

include hm hn in
/-- **Machines that are alike give the same numbered automaton.** -/
theorem toDfa_eq : m.toDfa = n.toDfa := by
  have hpairs := h.forall₂_discover hm hn
  have hstates : List.Forall₂ Eq (m.discover.map (m.describe m.discover))
      (n.discover.map (n.describe n.discover)) := by
    rw [List.forall₂_map_left_iff, List.forall₂_map_right_iff]
    exact hpairs.imp fun s t hst => h.describe_eq hm hn hpairs hst
  rw [List.forall₂_eq_eq_eq] at hstates
  simp only [toDfa, hstates]

end Alike
end Machine

/-! ## Automata whose sets correspond -/

namespace Nfa

variable {a b : Nfa} {s : IndexSet} {c : Char}

theorem eq_empty_of_isEmpty (h : s.isEmpty = true) : s = .empty := by
  ext i
  simpa using IndexSet.isEmpty_iff.mp h i

theorem advance_mem_subsetStates (hs : s ∈ a.subsetStates)
    (h : (a.advance s c).isEmpty = false) : a.advance s c ∈ a.subsetStates := by
  obtain ⟨-, w, rfl⟩ := hs
  exact ⟨h, w ++ [c], active_concat⟩

/-- A symbol that labels no edge leads nowhere. -/
theorem advance_eq_empty (ha : a.Shaped) (hc : c ∉ a.alphabet) : a.advance s c = .empty := by
  cases h : (a.advance s c).isEmpty with
  | true => exact eq_empty_of_isEmpty h
  | false =>
    have hnext : a.subsets.next s c = some (a.advance s c) := by
      rw [next_subsets, h]
      rfl
    exact absurd (covered_subsets ha s c _ hnext) hc

/-- A map of the sets that keeps the start, the moves and acceptance makes the machines of sets
alike. -/
theorem alike_subsets {f : IndexSet → IndexSet}
    (hf : Set.BijOn f a.subsetStates b.subsetStates) (hempty : f .empty = .empty)
    (ha : a.Closed) (hstart : f (a.active []) = b.active [])
    (hnext : ∀ s ∈ a.subsetStates, ∀ c, f (a.advance s c) = b.advance (f s) c)
    (hfinal : ∀ s ∈ a.subsetStates, a.final ∈ s ↔ b.final ∈ f s) :
    a.subsets.Alike b.subsets fun s t => s ∈ a.subsetStates ∧ f s = t where
  start := ⟨active_mem_subsetStates (w := []) (isEmpty_startSet ha), hstart⟩
  next := by
    rintro s _ ⟨hs, rfl⟩ c
    rw [next_subsets, next_subsets, ← hnext s hs c]
    cases h : (a.advance s c).isEmpty with
    | true =>
      rw [eq_empty_of_isEmpty h, hempty]
      exact .none
    | false =>
      have hmem := advance_mem_subsetStates hs h
      rw [(hf.mapsTo hmem).1]
      exact .some ⟨hmem, rfl⟩
  accepts := by
    rintro s _ ⟨hs, rfl⟩
    exact decide_eq_decide.mpr (hfinal s hs)
  unique := by
    constructor
    · rintro s s' t ⟨hs, rfl⟩ ⟨hs', h⟩
      exact hf.injOn hs hs' h.symm
    · rintro s t t' ⟨-, rfl⟩ ⟨-, rfl⟩
      rfl

end Nfa

/-- **The numbers are canonical**: if the sets of two automata correspond, start to start, moves to
moves and accepting to accepting, then both give one deterministic automaton, and a set has the
number of the set that it corresponds to. -/
theorem Dfa.ofNfa_canonical {a b : Nfa} (ha : a.Built) (hb : b.Built) {f : IndexSet → IndexSet}
    (hf : Set.BijOn f a.subsetStates b.subsetStates) (hempty : f .empty = .empty)
    (hstart : f (a.active []) = b.active [])
    (hnext : ∀ s ∈ a.subsetStates, ∀ c, f (a.advance s c) = b.advance (f s) c)
    (hfinal : ∀ s ∈ a.subsetStates, a.final ∈ s ↔ b.final ∈ f s) :
    Dfa.ofNfa a = Dfa.ofNfa b ∧
      ∀ s ∈ a.subsetStates, a.stateNumber s = b.stateNumber (f s) := by
  have ha' := Nfa.covered_subsets ha.shaped
  have hb' := Nfa.covered_subsets hb.shaped
  have h := Nfa.alike_subsets hf hempty ha.shaped.closed hstart hnext hfinal
  refine ⟨h.toDfa_eq ha' hb', fun s hs => ?_⟩
  exact h.idxOf_eq (h.forall₂_discover ha' hb') ⟨hs, rfl⟩

/-- The sets of a symbol or the same symbol again, taken to the sets of the symbol alone. -/
def onceSet (s : IndexSet) : IndexSet :=
  if s = ⟨11⟩ then ⟨1⟩ else if s = ⟨52⟩ then ⟨2⟩ else .empty

/-- A symbol or the same symbol again: the six states fall into two sets, as those of the symbol
alone do. -/
theorem Dfa.ofNfa_canonical_repeated :
    Set.BijOn onceSet ((Nfa.symbol 'a').alternate (.symbol 'a')).subsetStates
        (Nfa.symbol 'a').subsetStates ∧
      Dfa.ofNfa ((Nfa.symbol 'a').alternate (.symbol 'a')) = Dfa.ofNfa (.symbol 'a') := by
  have ha : ((Nfa.symbol 'a').alternate (.symbol 'a')).Built :=
    .alternate (.symbol 'a') (.symbol 'a')
  have hb : (Nfa.symbol 'a').Built := .symbol 'a'
  have hsets : ((Nfa.symbol 'a').alternate (.symbol 'a')).subsetStates = {⟨11⟩, ⟨52⟩} := by
    have hfound : ((Nfa.symbol 'a').alternate (.symbol 'a')).subsets.discover = [⟨11⟩, ⟨52⟩] := by
      cbv
    ext s
    rw [← Nfa.mem_discover_subsets ha.shaped, hfound]
    simp
  have hsets' : (Nfa.symbol 'a').subsetStates = {⟨1⟩, ⟨2⟩} := by
    have hfound : (Nfa.symbol 'a').subsets.discover = [⟨1⟩, ⟨2⟩] := by cbv
    ext s
    rw [← Nfa.mem_discover_subsets hb.shaped, hfound]
    simp
  have hbij : Set.BijOn onceSet ((Nfa.symbol 'a').alternate (.symbol 'a')).subsetStates
      (Nfa.symbol 'a').subsetStates := by
    rw [hsets, hsets']
    refine ⟨?_, ?_, ?_⟩
    · rintro s (rfl | rfl) <;> simp [onceSet]
    · rintro s (rfl | rfl) t (rfl | rfl) <;> simp [onceSet]
    · rintro t (rfl | rfl)
      · exact ⟨⟨11⟩, by simp, rfl⟩
      · exact ⟨⟨52⟩, by simp, rfl⟩
  refine ⟨hbij, (ofNfa_canonical ha hb hbij rfl (by cbv) ?_ ?_).1⟩
  · intro s hs c
    rw [hsets] at hs
    by_cases hc : c = 'a'
    · subst hc
      rcases hs with rfl | rfl <;> cbv
    · rw [Nfa.advance_eq_empty ha.shaped (by simpa [Nfa.alternate, Nfa.symbol] using hc),
        Nfa.advance_eq_empty hb.shaped (by simpa [Nfa.symbol] using hc)]
      rfl
  · intro s hs
    rw [hsets] at hs
    rcases hs with rfl | rfl <;> decide

end PatternAutomata
