import Mathlib.Data.List.Basic
import Mathlib.Data.List.Induction
import Mathlib.Data.List.Nodup
import PatternAutomata.Dfa.Machine
/-!
# Numbering a machine keeps it

The search for the states of a machine is followed with the invariant `Explored`: no state is listed
twice, each was reached, and each waits on the stack or had all its successors listed. So the list
holds exactly the states that words lead to (`mem_discover`), and the numbered automaton does on
numbers what the machine does on states (`transition_toDfa`, `run_toDfa`).
-/
namespace PatternAutomata.Machine

variable {σ : Type}

/-- Where `w` leads from `s`. -/
def runFrom (m : Machine σ) (s : σ) (w : List Char) : Option σ := w.foldlM m.next s

/-- Where `w` leads from the start. -/
def run (m : Machine σ) (w : List Char) : Option σ := m.runFrom m.start w

/-- Only the listed symbols lead on. -/
def Covered (m : Machine σ) : Prop := ∀ s c t, m.next s c = some t → c ∈ m.symbols

variable {m : Machine σ} {s t : σ} {w : List Char} {c : Char}

@[simp] theorem runFrom_cons : m.runFrom s (c :: w) = (m.next s c).bind (m.runFrom · w) := by
  simp only [runFrom, List.foldlM_cons]
  rfl

theorem run_concat : m.run (w ++ [c]) = (m.run w).bind (m.next · c) := by
  simp [run, runFrom]

theorem mem_successors : t ∈ m.successors s ↔ ∃ c ∈ m.symbols, m.next s c = some t := by
  simp [successors]

/-! ## The search -/

variable [DecidableEq σ] {known stack rest l : List σ}

omit [DecidableEq σ] in
theorem nodup_snoc (h : known.Nodup) (hs : s ∉ known) : (known ++ [s]).Nodup := by
  rw [List.nodup_append]
  refine ⟨h, by simp, fun x hx y hy => ?_⟩
  rw [List.mem_singleton.mp hy]
  exact ne_of_mem_of_not_mem hx hs

theorem nodup_append_unknown (h : known.Nodup) : (known ++ unknown known l).Nodup := by
  induction l generalizing known with
  | nil => simpa [unknown] using h
  | cons a l ih =>
    unfold unknown
    split
    · exact ih h
    · next ha =>
      have hrest := ih (nodup_snoc h ha)
      rwa [List.append_assoc, List.singleton_append] at hrest

/-- What the search keeps: `known` are the states seen so far, `stack` those still to be
followed. -/
structure Explored (m : Machine σ) (known stack : List σ) : Prop where
  nodup : known.Nodup
  stacked : ∀ s ∈ stack, s ∈ known
  nodup_stack : stack.Nodup
  followed : ∀ s ∈ known, s ∈ stack ∨ ∀ t ∈ m.successors s, t ∈ known
  reached : ∀ s ∈ known, ∃ w, m.run w = some s

omit [DecidableEq σ] in
theorem Explored.start (m : Machine σ) : m.Explored [m.start] [m.start] where
  nodup := by simp
  stacked := fun _ hs => hs
  nodup_stack := by simp
  followed := fun _ hs => .inl hs
  reached := by
    intro s hs
    rw [List.mem_singleton.mp hs]
    exact ⟨[], rfl⟩

/-- Following the state on top of the stack keeps the invariant. -/
theorem Explored.follow (h : m.Explored known (s :: rest)) :
    m.Explored (known ++ unknown known (m.successors s))
      ((unknown known (m.successors s)).reverse ++ rest) where
  nodup := nodup_append_unknown h.nodup
  stacked := by
    intro t ht
    rw [List.mem_append, List.mem_reverse] at ht
    rw [List.mem_append]
    rcases ht with ht | ht
    · exact .inr ht
    · exact .inl (h.stacked t (List.mem_cons_of_mem _ ht))
  nodup_stack := by
    have hall := nodup_append_unknown (l := m.successors s) h.nodup
    rw [List.nodup_append] at hall
    rw [List.nodup_append]
    refine ⟨List.nodup_reverse.mpr hall.2.1, (List.nodup_cons.mp h.nodup_stack).2, ?_⟩
    intro t ht u hu
    have huk : u ∈ known := h.stacked u (List.mem_cons_of_mem _ hu)
    exact (hall.2.2 u huk t (List.mem_reverse.mp ht)).symm
  followed := by
    intro t ht
    simp only [List.mem_append, List.mem_reverse, mem_unknown] at ht ⊢
    rcases ht with ht | ht
    · rcases h.followed t ht with hstack | hdone
      · rcases List.mem_cons.mp hstack with rfl | hrest
        · -- `t` is the state at hand, and its successors are known now
          refine .inr fun u hu => ?_
          by_cases huk : u ∈ known
          · exact .inl huk
          · exact .inr ⟨hu, huk⟩
        · exact .inl (.inr hrest)
      · exact .inr fun u hu => .inl (hdone u hu)
    · exact .inl (.inl ht)
  reached := by
    intro t ht
    rcases List.mem_append.mp ht with ht | ht
    · exact h.reached t ht
    · obtain ⟨c, -, hc⟩ := mem_successors.mp (mem_unknown.mp ht).1
      obtain ⟨w, hw⟩ := h.reached s (h.stacked s List.mem_cons_self)
      exact ⟨w ++ [c], by rw [run_concat, hw, Option.bind_some, hc]⟩

theorem Explored.discoverFrom (h : m.Explored known stack) :
    m.Explored (m.discoverFrom known stack) [] := by
  fun_induction Machine.discoverFrom m known stack with
  | case1 known => exact h
  | case2 known s rest new hnew ih =>
    have hstep := h.follow
    rw [show unknown known (m.successors s) = [] from List.isEmpty_iff.mp hnew] at hstep
    simp only [List.append_nil, List.reverse_nil, List.nil_append] at hstep
    exact ih hstep
  | case3 known s rest new _ ih => exact ih h.follow

theorem prefix_discoverFrom : known <+: m.discoverFrom known stack := by
  fun_induction Machine.discoverFrom m known stack with
  | case1 known => exact List.prefix_rfl
  | case2 known s rest new _ ih => exact ih
  | case3 known s rest new _ ih => exact (List.prefix_append _ _).trans ih

theorem explored_discover (m : Machine σ) : m.Explored m.discover [] :=
  (Explored.start m).discoverFrom

theorem nodup_discover (m : Machine σ) : m.discover.Nodup := m.explored_discover.nodup

theorem discover_eq_start_cons (m : Machine σ) : ∃ l, m.discover = m.start :: l := by
  have hprefix : [m.start] <+: m.discover := prefix_discoverFrom
  obtain ⟨l, hl⟩ := hprefix
  exact ⟨l, hl.symm⟩

theorem start_mem_discover (m : Machine σ) : m.start ∈ m.discover := by
  obtain ⟨l, hl⟩ := m.discover_eq_start_cons
  rw [hl]
  exact List.mem_cons_self

theorem idxOf_start (m : Machine σ) : m.discover.idxOf m.start = 0 := by
  obtain ⟨l, hl⟩ := m.discover_eq_start_cons
  rw [hl, List.idxOf_cons_self]

theorem next_mem_discover (hm : m.Covered) (hs : s ∈ m.discover) (ht : m.next s c = some t) :
    t ∈ m.discover := by
  rcases m.explored_discover.followed s hs with h | h
  · exact absurd h (by simp)
  · exact h t (mem_successors.mpr ⟨c, hm s c t ht, ht⟩)

/-- **Exactly the states that words lead to are listed.** -/
theorem mem_discover (hm : m.Covered) : s ∈ m.discover ↔ ∃ w, m.run w = some s := by
  constructor
  · exact m.explored_discover.reached s
  · rintro ⟨w, hw⟩
    induction w using List.reverseRecOn generalizing s with
    | nil =>
      obtain rfl : m.start = s := Option.some.inj hw
      exact m.start_mem_discover
    | append_singleton w c ih =>
      rw [run_concat] at hw
      obtain ⟨t, ht, hts⟩ := Option.bind_eq_some_iff.mp hw
      exact next_mem_discover hm (ih ht) hts

/-! ## The numbered automaton -/

theorem stateCount_toDfa : m.toDfa.stateCount = m.discover.length := by
  simp [toDfa, Dfa.stateCount]

theorem state_toDfa (hs : s ∈ m.discover) :
    m.toDfa.states[m.discover.idxOf s]? = some (m.describe m.discover s) := by
  have hi : m.discover[m.discover.idxOf s]? = some s := List.getElem?_idxOf hs
  simp [toDfa, List.getElem?_map, hi]

theorem isAccepting_toDfa (hs : s ∈ m.discover) :
    m.toDfa.isAccepting (m.discover.idxOf s) = m.accepts s := by
  rw [Dfa.isAccepting, state_toDfa hs]
  rfl

/-- Looking up a symbol among the moves of a state. -/
theorem lookup_filterMap {f : Char → Option Nat} {cs : List Char} :
    (cs.filterMap fun d => (f d).map fun n => (d, n)).lookup c = if c ∈ cs then f c else none := by
  induction cs with
  | nil => rfl
  | cons d cs ih =>
    rw [List.filterMap_cons]
    by_cases hcd : c = d
    · subst hcd
      cases hf : f c with
      | none => simp [ih, hf]
      | some n => simp
    · have hbeq : (c == d) = false := beq_eq_false_iff_ne.mpr hcd
      cases hf : f d with
      | none => simp [ih, hcd]
      | some n => simp [List.lookup_cons, hbeq, ih, hcd]

theorem transition_toDfa (hm : m.Covered) (hs : s ∈ m.discover) :
    m.toDfa.transition (m.discover.idxOf s) c = (m.next s c).map m.discover.idxOf := by
  have hmoves : m.toDfa.movesFrom (m.discover.idxOf s) = m.symbols.toList.filterMap fun d =>
      ((m.next s d).map m.discover.idxOf).map fun n => (d, n) := by
    rw [Dfa.movesFrom, state_toDfa hs]
    simp [describe, Function.comp_def]
  rw [Dfa.transition, hmoves, lookup_filterMap]
  split
  · rfl
  · next hc =>
    cases ht : m.next s c with
    | none => rfl
    | some t => exact absurd (hm s c t ht) hc

theorem runFrom_toDfa (hm : m.Covered) (hs : s ∈ m.discover) :
    m.toDfa.runFrom (m.discover.idxOf s) w = (m.runFrom s w).map m.discover.idxOf := by
  induction w generalizing s with
  | nil => rfl
  | cons c w ih =>
    rw [Dfa.runFrom_cons, transition_toDfa hm hs, runFrom_cons]
    cases ht : m.next s c with
    | none => rfl
    | some t => exact ih (next_mem_discover hm hs ht)

theorem run_toDfa (hm : m.Covered) : m.toDfa.run w = (m.run w).map m.discover.idxOf := by
  have h := runFrom_toDfa (w := w) hm m.start_mem_discover
  rwa [idxOf_start] at h

/-- A number is the place of a listed state, or it is too large. -/
theorem exists_idxOf_of_lt {q : Nat} (hq : q < m.toDfa.stateCount) :
    ∃ s ∈ m.discover, m.discover.idxOf s = q := by
  rw [stateCount_toDfa] at hq
  exact ⟨m.discover[q], List.getElem_mem hq, m.nodup_discover.idxOf_getElem q hq⟩

theorem isAccepting_of_stateCount_le {q : Nat} (hq : m.toDfa.stateCount ≤ q) :
    m.toDfa.isAccepting q = false :=
  Dfa.isAccepting_of_stateCount_le hq

theorem movesFrom_of_stateCount_le {q : Nat} (hq : m.toDfa.stateCount ≤ q) :
    m.toDfa.movesFrom q = [] :=
  Dfa.movesFrom_of_stateCount_le hq

theorem isAccepting_toDfa_iff {q : Nat} :
    m.toDfa.isAccepting q = true ↔
      ∃ s ∈ m.discover, m.accepts s = true ∧ q = m.discover.idxOf s := by
  constructor
  · intro h
    by_cases hq : q < m.toDfa.stateCount
    · obtain ⟨s, hs, rfl⟩ := exists_idxOf_of_lt hq
      rw [isAccepting_toDfa hs] at h
      exact ⟨s, hs, h, rfl⟩
    · rw [isAccepting_of_stateCount_le (Nat.not_lt.mp hq)] at h
      cases h
  · rintro ⟨s, hs, h, rfl⟩
    rw [isAccepting_toDfa hs, h]

theorem transition_toDfa_iff (hm : m.Covered) {q r : Nat} :
    m.toDfa.transition q c = some r ↔
      ∃ s t, s ∈ m.discover ∧ m.next s c = some t ∧ q = m.discover.idxOf s ∧
        r = m.discover.idxOf t := by
  constructor
  · intro h
    by_cases hq : q < m.toDfa.stateCount
    · obtain ⟨s, hs, rfl⟩ := exists_idxOf_of_lt hq
      rw [transition_toDfa hm hs] at h
      obtain ⟨t, ht, rfl⟩ := Option.map_eq_some_iff.mp h
      exact ⟨s, t, hs, ht, rfl, rfl⟩
    · rw [Dfa.transition, movesFrom_of_stateCount_le (Nat.not_lt.mp hq)] at h
      cases h
  · rintro ⟨s, t, hs, ht, rfl, rfl⟩
    rw [transition_toDfa hm hs, ht]
    rfl

/-- The moves of a state are listed by ascending symbols, so no symbol has two targets. -/
theorem movesFrom_ascending (m : Machine σ) (q : Nat) :
    (m.toDfa.movesFrom q).Pairwise (·.1 < ·.1) := by
  unfold Dfa.movesFrom
  cases hq : m.toDfa.states[q]? with
  | none => exact .nil
  | some d =>
    obtain ⟨s, -, rfl⟩ := List.mem_map.mp (List.mem_of_getElem? hq)
    refine List.Pairwise.filterMap _ (fun c d hcd x hx y hy => ?_) m.symbols.ascending
    obtain ⟨t, -, rfl⟩ := Option.map_eq_some_iff.mp hx
    obtain ⟨u, -, rfl⟩ := Option.map_eq_some_iff.mp hy
    exact hcd

end PatternAutomata.Machine
