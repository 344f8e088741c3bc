import PatternAutomata.Compile
import PatternAutomata.Proofs.CompileLanguage
import PatternAutomata.Proofs.SubsetConstruction
/-!
# The log of the subset construction

The log lists the sets once all of them are known. A loop that numbers them as it goes writes its
records earlier, each as soon as a set is new, and it takes the sets from a stack, last in first
out. Its records are the same (`Machine.Logged.exists_finishes`), since the next free number is
always one more than the last.

So the records tell what each state of the deterministic automaton stands for: the set that the
nondeterministic one is in after every word that leads there (`compileLog_certifies`).
-/
namespace PatternAutomata

namespace Machine

variable {σ : Type}

/-! ## The loop with its records -/

/-- What the loop holds, and the records it has written so far: states that were new, with their
numbers. -/
structure Logged (σ : Type) where
  worklist : Worklist σ
  records : List (σ × Nat)

namespace Logged

/-- There is no record of the start. -/
def start (m : Machine σ) : Logged σ := ⟨.start m, []⟩

variable [DecidableEq σ]

/-- One symbol of the state `s` with the number `q`. -/
def visit (m : Machine σ) (s : σ) (q : Nat) (l : Logged σ) (c : Char) : Option (Logged σ) :=
  match m.next s c with
  | none => some l
  | some t =>
    match l.worklist.numbers.lookup t with
    | some r => (l.worklist.write q c r).map fun w => ⟨w, l.records⟩
    | none =>
      ((l.worklist.enroll t).write q c l.worklist.counter).map fun w =>
        ⟨w, l.records ++ [(t, l.worklist.counter)]⟩

/-- The state on top of the stack is taken off and followed. -/
def round (m : Machine σ) (l : Logged σ) : Option (Logged σ) :=
  match l.worklist.stack with
  | [] => some l
  | (s, q) :: rest =>
    m.symbols.toList.foldlM (visit m s q)
      { l with
        worklist := { l.worklist with
          stack := rest
          accepting :=
            if m.accepts s then l.worklist.accepting ++ [q] else l.worklist.accepting } }

/-- Rounds that none of which fails lead from `l` to `out`, where nothing is left on the stack. -/
inductive Finishes (m : Machine σ) : Logged σ → Logged σ → Prop
  | done {l : Logged σ} : l.worklist.stack = [] → Finishes m l l
  | next {l l' out : Logged σ} :
      l.worklist.stack ≠ [] → round m l = some l' → Finishes m l' out → Finishes m l out

end Logged

/-! ## The records are the numbers -/

/-- A worklist with a record for each number but the first. -/
def Worklist.logged (w : Worklist σ) : Logged σ := ⟨w, w.numbers.drop 1⟩

namespace Logged

theorem numbers_of_write {w w' : Worklist σ} {q r : Nat} {c : Char}
    (h : w.write q c r = some w') : w'.numbers = w.numbers := by
  unfold Worklist.write at h
  split at h
  · cases h
  · cases h
    rfl

variable [DecidableEq σ] {m : Machine σ} {w w' out : Worklist σ} {s : σ} {q : Nat} {c : Char}
  {cs : List Char}

theorem numbers_ne_nil_of_visit (hw : w.numbers ≠ []) (h : w.visit m s q c = some w') :
    w'.numbers ≠ [] := by
  unfold Worklist.visit at h
  split at h
  · cases h
    exact hw
  · split at h
    · rw [numbers_of_write h]
      exact hw
    · rw [numbers_of_write h]
      exact List.append_ne_nil_of_left_ne_nil hw _

/-- **One symbol writes a record exactly if it takes up a number.** -/
theorem visit_logged (hw : w.numbers ≠ []) :
    w.logged.visit m s q c = (w.visit m s q c).map Worklist.logged := by
  unfold visit Worklist.visit
  cases m.next s c with
  | none => rfl
  | some t =>
    cases hlookup : w.numbers.lookup t with
    | some r =>
      cases hwrite : w.write q c r with
      | none => simp [Worklist.logged, hlookup, hwrite]
      | some w' => simp [Worklist.logged, hlookup, hwrite, numbers_of_write hwrite]
    | none =>
      cases hwrite : (w.enroll t).write q c w.counter with
      | none => simp [Worklist.logged, hlookup, hwrite]
      | some w' =>
        have hlength : 1 ≤ w.numbers.length := List.length_pos_iff.mpr hw
        have hnumbers : w'.numbers.drop 1 = w.numbers.drop 1 ++ [(t, w.counter)] := by
          rw [numbers_of_write hwrite]
          exact List.drop_append_of_le_length hlength
        simp [Worklist.logged, hlookup, hwrite, hnumbers]

theorem foldlM_visit_logged (hw : w.numbers ≠ []) :
    cs.foldlM (visit m s q) w.logged =
        (cs.foldlM (Worklist.visit m s q) w).map Worklist.logged ∧
      ∀ w', cs.foldlM (Worklist.visit m s q) w = some w' → w'.numbers ≠ [] := by
  induction cs generalizing w with
  | nil =>
    refine ⟨rfl, ?_⟩
    rintro w' ⟨⟩
    exact hw
  | cons c cs ih =>
    rw [List.foldlM_cons, List.foldlM_cons, visit_logged hw]
    cases hvisit : w.visit m s q c with
    | none =>
      refine ⟨rfl, ?_⟩
      rintro w' ⟨⟩
    | some w₁ => exact ih (numbers_ne_nil_of_visit hw hvisit)

theorem round_logged (hw : w.numbers ≠ []) :
    w.logged.round m = (w.round m).map Worklist.logged ∧
      ∀ w', w.round m = some w' → w'.numbers ≠ [] := by
  unfold round Worklist.round
  cases hstack : w.stack with
  | nil =>
    simp only [Worklist.logged, hstack]
    refine ⟨rfl, ?_⟩
    rintro w' ⟨⟩
    exact hw
  | cons e rest =>
    simp only [Worklist.logged, hstack]
    exact foldlM_visit_logged hw

/-- **A run of the loop is a run of the loop with records**, one for each number but the first. -/
theorem finishes_logged (h : Worklist.Finishes m w out) (hw : w.numbers ≠ []) :
    Finishes m w.logged out.logged := by
  induction h with
  | done hstack => exact .done hstack
  | @next w w' out hstack hround _ ih =>
    obtain ⟨hlogged, hne⟩ := round_logged (m := m) hw
    rw [hround] at hlogged
    exact .next hstack hlogged (ih (hne w' hround))

/-- **The loop ends without a failure**, and its records are the states that were discovered after
the start, in this order, with their numbers. -/
theorem exists_finishes (m : Machine σ) :
    ∃ out, Finishes m (.start m) out ∧ out.records = m.discover.zipIdx.drop 1 := by
  obtain ⟨out, hout, h⟩ := InStep.finishes _ _ _ (.start m)
  refine ⟨out.logged, finishes_logged hout (List.cons_ne_nil _ _), ?_⟩
  rw [Worklist.logged, h.filled.numbers]
  rfl

end Logged

/-! ## States by their numbers -/

theorem drop_zipIdx {known : List σ} (s : σ) : known.zipIdx.drop 1 =
    (List.range' 1 (known.length - 1)).map fun i => (known.getD i s, i) := by
  refine List.ext_getElem (by simp) fun i hi _ => ?_
  have hlt : i + 1 < known.length := by
    rw [List.length_drop, List.length_zipIdx] at hi
    omega
  simp [Nat.add_comm 1 i, hlt]

variable [DecidableEq σ]

theorem countP_accepts (m : Machine σ) :
    m.discover.countP m.accepts = m.toDfa.acceptingStates.length := by
  have hmap : m.discover.map m.accepts =
      (List.range m.discover.length).map m.toDfa.isAccepting := by
    refine List.ext_getElem (by simp) fun i hi _ => ?_
    rw [List.length_map] at hi
    have hidx : m.discover.idxOf m.discover[i] = i := m.nodup_discover.idxOf_getElem i hi
    have haccepting := isAccepting_toDfa (List.getElem_mem hi)
    rw [hidx] at haccepting
    rw [List.getElem_map, List.getElem_map, List.getElem_range, haccepting]
  calc m.discover.countP m.accepts
      = (m.discover.map m.accepts).countP id := by
        rw [List.countP_map]
        rfl
    _ = (List.range m.discover.length).countP m.toDfa.isAccepting := by
        rw [hmap, List.countP_map]
        rfl
    _ = m.toDfa.acceptingStates.length := by
        rw [Dfa.acceptingStates, ← List.countP_eq_length_filter, stateCount_toDfa]

end Machine

/-! ## Sets by their numbers -/

namespace Nfa

variable {a : Nfa} {i j : Nat} {s : IndexSet} {w : List Char}

/-- The set with the number `i`. -/
def stateSet (a : Nfa) (i : Nat) : IndexSet := a.subsets.discover.getD i a.startSet

theorem stateSet_stateNumber (hs : s ∈ a.subsets.discover) : a.stateSet (a.stateNumber s) = s := by
  rw [stateSet, stateNumber, List.getD_eq_getElem?_getD, List.getElem?_idxOf hs, Option.getD_some]

theorem stateNumber_stateSet (hi : i < (Dfa.ofNfa a).stateCount) :
    a.stateSet i ∈ a.subsets.discover ∧ a.stateNumber (a.stateSet i) = i := by
  obtain ⟨s, hs, rfl⟩ := Machine.exists_idxOf_of_lt hi
  have hset : a.stateSet (a.subsets.discover.idxOf s) = s := stateSet_stateNumber hs
  rw [hset]
  exact ⟨hs, rfl⟩

theorem stateSet_zero (a : Nfa) : a.stateSet 0 = a.startSet := by
  obtain ⟨l, hl⟩ := a.subsets.discover_eq_start_cons
  rw [stateSet, hl]
  rfl

theorem stateSet_inj (hi : i < (Dfa.ofNfa a).stateCount) (hj : j < (Dfa.ofNfa a).stateCount) :
    a.stateSet i = a.stateSet j ↔ i = j := by
  constructor
  · intro h
    rw [← (stateNumber_stateSet hi).2, h, (stateNumber_stateSet hj).2]
  · rintro rfl
    rfl

/-- **A state stands for the set that is active after every word that leads to it**, and there is
such a word. -/
theorem run_ofNfa_eq_some_iff (ha : a.Shaped) (hi : i < (Dfa.ofNfa a).stateCount) :
    (Dfa.ofNfa a).run w = some i ↔ a.active w = a.stateSet i := by
  obtain ⟨hmem, hnumber⟩ := stateNumber_stateSet hi
  rw [Dfa.run_ofNfa ha]
  constructor
  · intro h
    split at h
    next => cases h
    next hne =>
      have hactive := active_mem_subsetStates (Bool.eq_false_iff.mpr hne)
      rw [← Option.some.inj h, stateSet_stateNumber ((mem_discover_subsets ha).mpr hactive)]
  · intro h
    obtain ⟨hne, -⟩ := (mem_discover_subsets ha).mp hmem
    rw [h, hne, hnumber]
    rfl

theorem determinizeLog_eq (a : Nfa) : determinizeLog a =
    ((List.range' 1 ((Dfa.ofNfa a).stateCount - 1)).map fun i => .discovered i (a.stateSet i)) ++
      [.determinized a.size (Dfa.ofNfa a).stateCount (Dfa.ofNfa a).acceptingStates.length] := by
  unfold determinizeLog
  dsimp only
  rw [Machine.drop_zipIdx a.startSet, List.map_map, Machine.countP_accepts, Dfa.ofNfa,
    Machine.stateCount_toDfa]
  rfl

end Nfa

/-- **The log certifies the subset construction.** If the pattern does not parse, it holds the
tokens alone. Otherwise a record for each state but the start follows, in ascending order, between
the sizes of the two automata, and these are the records of the loop that writes them as it goes.

The recorded sets are not empty, they differ from each other and from the one at the start, and that
of a state is the set of those states that the nondeterministic automaton is in after a word, if
and only if the word leads to this state. -/
theorem compileLog_certifies (p : List Char) :
    (∀ e, parse p = .error e → compileLog p = [.tokens p (tokenize p)]) ∧
    ∀ t, parse p = .ok t →
      ∃ (d : Dfa) (set : Nat → IndexSet) (out : Machine.Logged IndexSet), compile p = .ok d ∧
        compileLog p =
          [.tokens p (tokenize p), .built (Nfa.ofTree t).size (Nfa.ofTree t).alphabet] ++
          (List.range' 1 (d.stateCount - 1)).map (fun i => .discovered i (set i)) ++
          [.determinized (Nfa.ofTree t).size d.stateCount d.acceptingStates.length] ∧
        Machine.Logged.Finishes (Nfa.ofTree t).subsets (.start (Nfa.ofTree t).subsets) out ∧
        out.records = (List.range' 1 (d.stateCount - 1)).map (fun i => (set i, i)) ∧
        set 0 = (Nfa.ofTree t).startSet ∧
        (∀ i, 0 < i → i < d.stateCount → set i ≠ (Nfa.ofTree t).startSet) ∧
        (∀ i j, i < d.stateCount → j < d.stateCount → (set i = set j ↔ i = j)) ∧
        ∀ i < d.stateCount, (set i).isEmpty = false ∧ (∃ w, d.run w = some i) ∧
          ∀ w, d.run w = some i ↔ (Nfa.ofTree t).active w = set i := by
  constructor
  · intro e he
    rw [compileLog, he]
  · intro t ht
    have hshaped : (Nfa.ofTree t).Shaped := (Nfa.built_ofTree t).shaped
    obtain ⟨out, hout, hrecords⟩ := Machine.Logged.exists_finishes (Nfa.ofTree t).subsets
    refine ⟨.ofTree t, (Nfa.ofTree t).stateSet, out, compile_of_parse ht, ?_, hout, ?_,
      Nfa.stateSet_zero _, ?_, fun i j => Nfa.stateSet_inj, ?_⟩
    · simp only [compileLog, ht]
      rw [Nfa.determinizeLog_eq]
      rfl
    · rw [hrecords, Machine.drop_zipIdx (Nfa.ofTree t).startSet, Dfa.ofTree, Dfa.ofNfa,
        Machine.stateCount_toDfa]
      rfl
    · intro i hpos hi hset
      rw [← Nfa.stateSet_zero, Nfa.stateSet_inj hi (hpos.trans hi)] at hset
      exact hpos.ne' hset
    · intro i hi
      obtain ⟨hmem, -⟩ := Nfa.stateNumber_stateSet hi
      obtain ⟨hne, w, hw⟩ := (Nfa.mem_discover_subsets hshaped).mp hmem
      exact ⟨hne, ⟨w, (Nfa.run_ofNfa_eq_some_iff hshaped hi).mpr hw⟩,
        fun w => Nfa.run_ofNfa_eq_some_iff hshaped hi⟩

/-- A repeated symbol has one state after the start. -/
theorem compileLog_certifies_star :
    parse ['a', '*'] = .ok (.star (.literal 'a')) ∧
    ∃ set : IndexSet, compileLog ['a', '*'] =
      [.tokens ['a', '*'] [⟨.literal 'a', 0⟩, ⟨.star, 1⟩], .built 4 (.ofList ['a']),
        .discovered 1 set, .determinized 4 2 2] ∧
      ∀ w, (Dfa.ofTree (.star (.literal 'a'))).run w = some 1 ↔
        (Nfa.ofTree (.star (.literal 'a'))).active w = set := by
  have hparse : parse ['a', '*'] = .ok (.star (.literal 'a')) := rfl
  have hcount : (Dfa.ofTree (.star (.literal 'a'))).stateCount = 2 := by cbv
  have haccepting : (Dfa.ofTree (.star (.literal 'a'))).acceptingStates = [0, 1] := by cbv
  obtain ⟨d, set, -, hd, hlog, -, -, -, -, -, hstates⟩ :=
    (compileLog_certifies ['a', '*']).2 _ hparse
  rw [compile_of_parse hparse] at hd
  cases hd
  rw [hcount, haccepting] at hlog
  refine ⟨hparse, set 1, hlog, (hstates 1 ?_).2.2⟩
  rw [hcount]
  decide

end PatternAutomata
