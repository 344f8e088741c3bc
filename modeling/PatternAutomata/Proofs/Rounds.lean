import PatternAutomata.Proofs.Numbering
/-!
# Numbering in rounds

`toDfa` lists the states first and describes them afterwards. Here both are done in one loop: a
round takes a state off the stack and goes through the symbols; a state that is seen for the first
time gets the next free number and is pushed, and the move to it is written into a table. Writing a
second target for the same state and symbol is refused, so a round may fail.

No round fails, the loop ends, and what it leaves is the numbered automaton (`rounds_toDfa`).
-/
namespace PatternAutomata.Machine

variable {σ : Type}

/-- What the loop holds between two rounds. -/
structure Worklist (σ : Type) where
  /-- The states seen so far with their numbers. -/
  numbers : List (σ × Nat)
  /-- The next free number. -/
  counter : Nat
  /-- The states that still have to be followed, with their numbers. -/
  stack : List (σ × Nat)
  accepting : List Nat
  table : List (Nat × Char × Nat)

namespace Worklist

/-- Only the start has been seen. -/
def start (m : Machine σ) : Worklist σ := ⟨[(m.start, 0)], 1, [(m.start, 0)], [], []⟩

/-- `t` gets the next free number and waits on the stack. -/
def enroll (l : Worklist σ) (t : σ) : Worklist σ :=
  { l with
    numbers := l.numbers ++ [(t, l.counter)]
    counter := l.counter + 1
    stack := (t, l.counter) :: l.stack }

/-- The move from `q` for `c` is written down, unless there is one already. -/
def write (l : Worklist σ) (q : Nat) (c : Char) (r : Nat) : Option (Worklist σ) :=
  if ∃ m ∈ l.table, m.1 = q ∧ m.2.1 = c then none
  else some { l with table := l.table ++ [(q, c, r)] }

variable [DecidableEq σ]

/-- One symbol of the state `s` with the number `q`. -/
def visit (m : Machine σ) (s : σ) (q : Nat) (l : Worklist σ) (c : Char) : Option (Worklist σ) :=
  match m.next s c with
  | none => some l
  | some t =>
    match l.numbers.lookup t with
    | some r => l.write q c r
    | none => (l.enroll t).write q c l.counter

/-- The state on top of the stack is taken off and followed. -/
def round (m : Machine σ) (l : Worklist σ) : Option (Worklist σ) :=
  match l.stack with
  | [] => some l
  | (s, q) :: rest =>
    m.symbols.toList.foldlM (visit m s q)
      { l with
        stack := rest
        accepting := if m.accepts s then l.accepting ++ [q] else l.accepting }

/-- Rounds that none of which fails lead from `l` to `out`, where nothing is left on the stack. -/
inductive Finishes (m : Machine σ) : Worklist σ → Worklist σ → Prop
  | done {l : Worklist σ} : l.stack = [] → Finishes m l l
  | next {l l' out : Worklist σ} :
      l.stack ≠ [] → round m l = some l' → Finishes m l' out → Finishes m l out

end Worklist

/-! ## Numbers are places -/

variable [DecidableEq σ] {m : Machine σ} {known stack l : List σ} {s t : σ} {c : Char}

theorem lookup_zipIdx (k : Nat) :
    (known.zipIdx k).lookup t = if t ∈ known then some (known.idxOf t + k) else none := by
  induction known generalizing k with
  | nil => rfl
  | cons s known ih =>
    rw [List.zipIdx_cons, List.lookup_cons]
    by_cases hts : t = s
    · subst hts
      simp
    · have hbeq : (t == s) = false := beq_eq_false_iff_ne.mpr hts
      have hidx : (s :: known).idxOf t = known.idxOf t + 1 := List.idxOf_cons_ne _ (Ne.symm hts)
      simp only [hbeq, ih, List.mem_cons, hts, false_or, hidx]
      split
      · congr 1
        omega
      · rfl

theorem mem_zipIdx_iff (h : known.Nodup) {q : Nat} :
    (s, q) ∈ known.zipIdx ↔ s ∈ known ∧ known.idxOf s = q := by
  rw [List.mk_mem_zipIdx_iff_getElem?]
  constructor
  · intro hq
    obtain ⟨hlt, rfl⟩ := List.getElem?_eq_some_iff.mp hq
    exact ⟨List.getElem_mem hlt, h.idxOf_getElem q hlt⟩
  · rintro ⟨hs, rfl⟩
    exact List.getElem?_idxOf hs

theorem unknown_append (k l' : List σ) :
    unknown k (l ++ l') = unknown k l ++ unknown (k ++ unknown k l) l' := by
  induction l generalizing k with
  | nil => simp [unknown]
  | cons a l ih =>
    simp only [List.cons_append, unknown]
    split
    · exact ih k
    · rw [ih]
      simp

/-! ## What the loop holds -/

/-- The worklist agrees with the states listed and stacked, and the table holds the moves of the
pairs that are `done`. -/
structure Filled (m : Machine σ) (w : Worklist σ) (known stack : List σ) (done : σ → Char → Prop) :
    Prop where
  nodup : known.Nodup
  stacked : ∀ s ∈ stack, s ∈ known
  numbers : w.numbers = known.zipIdx
  counter : w.counter = known.length
  stack_eq : w.stack = stack.map fun s => (s, known.idxOf s)
  done_known : ∀ s c, done s c → s ∈ known
  targets : ∀ s c t, done s c → m.next s c = some t → t ∈ known
  mem_table : ∀ q c r, (q, c, r) ∈ w.table ↔
    ∃ s t, done s c ∧ m.next s c = some t ∧ q = known.idxOf s ∧ r = known.idxOf t

namespace Filled

variable {w : Worklist σ} {done : σ → Char → Prop}

theorem congr {done' : σ → Char → Prop} (h : m.Filled w known stack done)
    (hd : ∀ s c, done s c ↔ done' s c) : m.Filled w known stack done' := by
  have heq : done = done' := by
    funext s c
    exact propext (hd s c)
  exact heq ▸ h

/-- A state that was not seen before is numbered and stacked; the table stays as it is. -/
theorem enroll (h : m.Filled w known stack done) (ht : t ∉ known) :
    m.Filled (w.enroll t) (known ++ [t]) (t :: stack) done where
  nodup := nodup_snoc h.nodup ht
  stacked := by
    intro s hs
    rw [List.mem_append, List.mem_singleton]
    rcases List.mem_cons.mp hs with rfl | hs
    · exact .inr rfl
    · exact .inl (h.stacked s hs)
  numbers := by
    simp [Worklist.enroll, List.zipIdx_append, h.numbers, h.counter]
  counter := by
    simp [Worklist.enroll, h.counter]
  stack_eq := by
    have hidx : (known ++ [t]).idxOf t = known.length := by
      simp [List.idxOf_append_of_notMem ht]
    have hkeep : ∀ s ∈ stack, (s, known.idxOf s) = (s, (known ++ [t]).idxOf s) := fun s hs => by
      rw [List.idxOf_append_of_mem (h.stacked s hs)]
    simp only [Worklist.enroll, h.stack_eq, h.counter, List.map_cons, hidx]
    rw [List.map_congr_left hkeep]
  done_known := fun s c hs => List.mem_append_left _ (h.done_known s c hs)
  targets := fun s c u hs hu => List.mem_append_left _ (h.targets s c u hs hu)
  mem_table := by
    intro q c r
    rw [show (w.enroll t).table = w.table from rfl, h.mem_table]
    constructor
    · rintro ⟨s, u, hd, hu, rfl, rfl⟩
      refine ⟨s, u, hd, hu, ?_, ?_⟩
      · rw [List.idxOf_append_of_mem (h.done_known s c hd)]
      · rw [List.idxOf_append_of_mem (h.targets s c u hd hu)]
    · rintro ⟨s, u, hd, hu, rfl, rfl⟩
      refine ⟨s, u, hd, hu, ?_, ?_⟩
      · rw [List.idxOf_append_of_mem (h.done_known s c hd)]
      · rw [List.idxOf_append_of_mem (h.targets s c u hd hu)]

/-- A pair for which the machine does not move needs no entry. -/
theorem skip (h : m.Filled w known stack done) (hs : s ∈ known) (hn : m.next s c = none) :
    m.Filled w known stack (fun s' c' => done s' c' ∨ s' = s ∧ c' = c) where
  nodup := h.nodup
  stacked := h.stacked
  numbers := h.numbers
  counter := h.counter
  stack_eq := h.stack_eq
  done_known := by
    rintro s' c' (hd | ⟨rfl, -⟩)
    · exact h.done_known s' c' hd
    · exact hs
  targets := by
    rintro s' c' t (hd | ⟨rfl, rfl⟩) ht
    · exact h.targets s' c' t hd ht
    · rw [hn] at ht
      cases ht
  mem_table := by
    intro q c' r
    rw [h.mem_table]
    constructor
    · rintro ⟨s', t, hd, h'⟩
      exact ⟨s', t, .inl hd, h'⟩
    · rintro ⟨s', t, hd | ⟨rfl, rfl⟩, ht, h'⟩
      · exact ⟨s', t, hd, ht, h'⟩
      · rw [hn] at ht
        cases ht

/-- **The table has no entry for a pair that is not done**, so writing one does not fail. -/
theorem write (h : m.Filled w known stack done) (hs : s ∈ known) (hd : ¬ done s c)
    (ht : m.next s c = some t) (htk : t ∈ known) :
    ∃ w', w.write (known.idxOf s) c (known.idxOf t) = some w' ∧ w'.accepting = w.accepting ∧
      m.Filled w' known stack (fun s' c' => done s' c' ∨ s' = s ∧ c' = c) := by
  have hfree : ¬ ∃ e ∈ w.table, e.1 = known.idxOf s ∧ e.2.1 = c := by
    rintro ⟨⟨q, c', r⟩, he, rfl, rfl⟩
    obtain ⟨s', t', hd', -, hq, -⟩ := (h.mem_table _ _ _).mp he
    obtain rfl : s = s' := (List.idxOf_inj hs).mp hq
    exact hd hd'
  refine ⟨{ w with table := w.table ++ [(known.idxOf s, c, known.idxOf t)] },
    by rw [Worklist.write, if_neg hfree], rfl, ?_⟩
  refine ⟨h.nodup, h.stacked, h.numbers, h.counter, h.stack_eq, ?_, ?_, ?_⟩
  · rintro s' c' (hd' | ⟨rfl, -⟩)
    · exact h.done_known s' c' hd'
    · exact hs
  · rintro s' c' t' (hd' | ⟨rfl, rfl⟩) ht'
    · exact h.targets s' c' t' hd' ht'
    · rw [ht] at ht'
      exact Option.some.inj ht' ▸ htk
  · intro q c' r
    simp only [List.mem_append, List.mem_singleton, Prod.mk.injEq, h.mem_table]
    constructor
    · rintro (⟨s', t', hd', h'⟩ | ⟨rfl, rfl, rfl⟩)
      · exact ⟨s', t', .inl hd', h'⟩
      · exact ⟨s, t, .inr ⟨rfl, rfl⟩, ht, rfl, rfl⟩
    · rintro ⟨s', t', hd' | ⟨rfl, rfl⟩, ht', rfl, rfl⟩
      · exact .inl ⟨s', t', hd', ht', rfl, rfl⟩
      · rw [ht] at ht'
        exact .inr ⟨rfl, rfl, Option.some.inj ht' ▸ rfl⟩

/-- Going through one symbol of a known state. -/
theorem visit (h : m.Filled w known stack done) (hs : s ∈ known) (hd : ¬ done s c) :
    ∃ w', w.visit m s (known.idxOf s) c = some w' ∧ w'.accepting = w.accepting ∧
      m.Filled w' (known ++ unknown known (m.next s c).toList)
        ((unknown known (m.next s c).toList).reverse ++ stack)
        (fun s' c' => done s' c' ∨ s' = s ∧ c' = c) := by
  unfold Worklist.visit
  cases ht : m.next s c with
  | none => exact ⟨w, rfl, rfl, by simpa [unknown] using h.skip hs ht⟩
  | some t =>
    have hlookup : w.numbers.lookup t = if t ∈ known then some (known.idxOf t) else none := by
      rw [h.numbers, lookup_zipIdx]
      rfl
    simp only [hlookup, Option.toList_some, unknown]
    by_cases htk : t ∈ known
    · simpa [htk] using h.write hs hd ht htk
    · have hsk : (known ++ [t]).idxOf s = known.idxOf s := List.idxOf_append_of_mem hs
      have htl : (known ++ [t]).idxOf t = w.counter := by
        simp [List.idxOf_append_of_notMem htk, h.counter]
      have hw := (h.enroll htk).write (List.mem_append_left _ hs) hd ht (by simp)
      rw [hsk, htl, show (w.enroll t).accepting = w.accepting from rfl] at hw
      simpa [htk] using hw

/-- Going through the symbols of a known state, none of which was done. -/
theorem visits {cs : List Char} (h : m.Filled w known stack done) (hs : s ∈ known)
    (hcs : cs.Nodup) (hd : ∀ c ∈ cs, ¬ done s c) :
    ∃ w', cs.foldlM (Worklist.visit m s (known.idxOf s)) w = some w' ∧
      w'.accepting = w.accepting ∧
      m.Filled w' (known ++ unknown known (cs.filterMap (m.next s)))
        ((unknown known (cs.filterMap (m.next s))).reverse ++ stack)
        (fun s' c' => done s' c' ∨ s' = s ∧ c' ∈ cs) := by
  induction cs generalizing w known stack done with
  | nil => exact ⟨w, rfl, rfl, by simpa [unknown] using h⟩
  | cons c cs ih =>
    obtain ⟨hc, hcs⟩ := List.nodup_cons.mp hcs
    obtain ⟨w₁, hw₁, ha₁, h₁⟩ := h.visit hs (hd c List.mem_cons_self)
    have hs₁ : (known ++ unknown known (m.next s c).toList).idxOf s = known.idxOf s :=
      List.idxOf_append_of_mem hs
    have hd₁ : ∀ d ∈ cs, ¬ (done s d ∨ s = s ∧ d = c) := by
      rintro d hdcs (hds | ⟨-, rfl⟩)
      · exact hd d (List.mem_cons_of_mem _ hdcs) hds
      · exact hc hdcs
    obtain ⟨w₂, hw₂, ha₂, h₂⟩ := ih h₁ (List.mem_append_left _ hs) hcs hd₁
    rw [hs₁] at hw₂
    have hsplit : (c :: cs).filterMap (m.next s) =
        (m.next s c).toList ++ cs.filterMap (m.next s) := by
      rw [List.filterMap_cons]
      cases m.next s c <;> rfl
    refine ⟨w₂, by rw [List.foldlM_cons, hw₁]; exact hw₂, ha₂.trans ha₁, ?_⟩
    rw [hsplit, unknown_append, List.reverse_append, List.append_assoc, ← List.append_assoc known]
    refine h₂.congr fun s' c' => ?_
    simp only [List.mem_cons]
    grind

end Filled

/-- What the loop keeps from round to round: the pairs of the states off the stack are done, and
the accepting ones of these states are marked. -/
structure InStep (m : Machine σ) (w : Worklist σ) (known stack : List σ) : Prop where
  explored : m.Explored known stack
  filled : m.Filled w known stack fun s c => s ∈ known ∧ s ∉ stack ∧ c ∈ m.symbols
  accepting : ∀ q, q ∈ w.accepting ↔
    ∃ s ∈ known, s ∉ stack ∧ m.accepts s = true ∧ q = known.idxOf s

namespace InStep

variable {w : Worklist σ} {rest : List σ}

theorem start (m : Machine σ) : m.InStep (.start m) [m.start] [m.start] where
  explored := .start m
  filled := {
    nodup := by simp
    stacked := fun _ hs => hs
    numbers := rfl
    counter := rfl
    stack_eq := by simp [Worklist.start]
    done_known := fun _ _ hd => hd.1
    targets := fun s c t hd _ => absurd hd.1 hd.2.1
    mem_table := by
      intro q c r
      constructor
      · intro h
        cases h
      · rintro ⟨s, t, hd, -⟩
        exact absurd hd.1 hd.2.1 }
  accepting := by
    intro q
    constructor
    · intro h
      cases h
    · rintro ⟨s, hs, hns, -⟩
      exact absurd hs hns

/-- **A round does not fail**, and it does what the search does with the state on top. -/
theorem round (h : m.InStep w known (s :: rest)) :
    ∃ w', w.round m = some w' ∧
      m.InStep w' (known ++ unknown known (m.successors s))
        ((unknown known (m.successors s)).reverse ++ rest) := by
  have hs : s ∈ known := h.explored.stacked s List.mem_cons_self
  have hsrest : s ∉ rest := (List.nodup_cons.mp h.explored.nodup_stack).1
  have hstack : w.stack = (s, known.idxOf s) :: rest.map fun s => (s, known.idxOf s) :=
    h.filled.stack_eq
  have htaken : m.Filled
      { w with
        stack := rest.map fun s => (s, known.idxOf s)
        accepting := if m.accepts s then w.accepting ++ [known.idxOf s] else w.accepting }
      known rest (fun s' c => s' ∈ known ∧ s' ∉ s :: rest ∧ c ∈ m.symbols) :=
    { h.filled with
      stacked := fun s' hs' => h.explored.stacked s' (List.mem_cons_of_mem _ hs')
      stack_eq := rfl }
  obtain ⟨w', hw', ha', hfilled⟩ := htaken.visits hs m.symbols.ascending.nodup
    fun c _ hd => hd.2.1 List.mem_cons_self
  have hoff : ∀ s', s' ∈ known ++ unknown known (m.successors s) ∧
      s' ∉ (unknown known (m.successors s)).reverse ++ rest ↔
        (s' ∈ known ∧ s' ∉ s :: rest) ∨ s' = s := by
    intro s'
    simp only [List.mem_append, List.mem_reverse, List.mem_cons, mem_unknown, not_or]
    grind
  refine ⟨w', by rw [Worklist.round, hstack]; exact hw', h.explored.follow, ?_, ?_⟩
  · refine hfilled.congr fun s' c => ?_
    rw [← and_assoc, ← and_assoc, hoff, or_and_right]
    rfl
  · intro q
    have hmarked : q ∈ w'.accepting ↔
        q ∈ w.accepting ∨ m.accepts s = true ∧ q = known.idxOf s := by
      rw [ha']
      by_cases hacc : m.accepts s = true <;> simp [hacc]
    rw [hmarked, h.accepting]
    constructor
    · rintro (⟨s', hk, hns, hacc, rfl⟩ | ⟨hacc, rfl⟩)
      · obtain ⟨hk', hns'⟩ := (hoff s').mpr (.inl ⟨hk, hns⟩)
        exact ⟨s', hk', hns', hacc, (List.idxOf_append_of_mem hk).symm⟩
      · obtain ⟨hk', hns'⟩ := (hoff s).mpr (.inr rfl)
        exact ⟨s, hk', hns', hacc, (List.idxOf_append_of_mem hs).symm⟩
    · rintro ⟨s', hk', hns', hacc, rfl⟩
      rcases (hoff s').mp ⟨hk', hns'⟩ with ⟨hk, hns⟩ | rfl
      · exact .inl ⟨s', hk, hns, hacc, List.idxOf_append_of_mem hk⟩
      · exact .inr ⟨hacc, List.idxOf_append_of_mem hs⟩

/-- **The loop ends without a failure**, and then it holds what the search finds. -/
theorem finishes (known stack : List σ) : ∀ w, m.InStep w known stack →
    ∃ out, Worklist.Finishes m w out ∧ m.InStep out (m.discoverFrom known stack) [] := by
  fun_induction Machine.discoverFrom m known stack with
  | case1 known =>
    intro w h
    exact ⟨w, .done (by rw [h.filled.stack_eq, List.map_nil]), h⟩
  | case2 known s rest new hnew ih =>
    intro w h
    obtain ⟨w', hw', h'⟩ := h.round
    rw [show unknown known (m.successors s) = [] from List.isEmpty_iff.mp hnew] at h'
    simp only [List.append_nil, List.reverse_nil, List.nil_append] at h'
    obtain ⟨out, hout, h''⟩ := ih w' h'
    exact ⟨out, .next (by simp [h.filled.stack_eq]) hw' hout, h''⟩
  | case3 known s rest new _ ih =>
    intro w h
    obtain ⟨w', hw', h'⟩ := h.round
    obtain ⟨out, hout, h''⟩ := ih w' h'
    exact ⟨out, .next (by simp [h.filled.stack_eq]) hw' hout, h''⟩

end InStep

/-- **Numbering in rounds gives the numbered automaton**, and no round fails. -/
theorem rounds_toDfa (hm : m.Covered) :
    ∃ out, Worklist.Finishes m (.start m) out ∧
      (∀ s q, (s, q) ∈ out.numbers ↔ s ∈ m.discover ∧ m.discover.idxOf s = q) ∧
      out.counter = m.toDfa.stateCount ∧
      (∀ q c r, (q, c, r) ∈ out.table ↔ m.toDfa.transition q c = some r) ∧
      ∀ q, q ∈ out.accepting ↔ m.toDfa.isAccepting q = true := by
  obtain ⟨out, hout, h⟩ := InStep.finishes _ _ _ (.start m)
  refine ⟨out, hout, ?_, ?_, ?_, ?_⟩
  · intro s q
    rw [h.filled.numbers]
    exact mem_zipIdx_iff m.nodup_discover
  · rw [h.filled.counter, stateCount_toDfa]
    rfl
  · intro q c r
    rw [h.filled.mem_table, transition_toDfa_iff hm]
    constructor
    · rintro ⟨s, t, ⟨hs, -, -⟩, ht, rfl, rfl⟩
      exact ⟨s, t, hs, ht, rfl, rfl⟩
    · rintro ⟨s, t, hs, ht, rfl, rfl⟩
      exact ⟨s, t, ⟨hs, by simp, hm s c t ht⟩, ht, rfl, rfl⟩
  · intro q
    rw [h.accepting, isAccepting_toDfa_iff]
    constructor
    · rintro ⟨s, hs, -, hacc, rfl⟩
      exact ⟨s, hs, hacc, rfl⟩
    · rintro ⟨s, hs, hacc, rfl⟩
      exact ⟨s, hs, by simp, hacc, rfl⟩

end PatternAutomata.Machine
