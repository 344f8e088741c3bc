import PatternAutomata.Dump
import PatternAutomata.Proofs.EarlyRejection
import PatternAutomata.Proofs.ParseGrammar
import PatternAutomata.Proofs.TextParts
import PatternAutomata.Proofs.ThompsonInjective
/-!
# Dumps lose nothing

From the text of a dump the lines can be told, and from a line the numbers and signs in it. What the
lines say is enough to rebuild what was dumped:

* a tree, because the sign of a node tells how many children follow (`Tree.dump_inj`);
* a nondeterministic automaton, because its size and its edges are listed, and the symbols on these
  are its alphabet (`Nfa.dump_inj`);
* a deterministic automaton, whose number of states is not in the text: every state is entered by
  some run, so the start and the transitions tell the number (`Dfa.dump_inj`).
-/
namespace PatternAutomata

/-! ## Trees -/

namespace Tree

/-- The literals are letters and digits, so that none looks like an operator. -/
def Alphanumeric (t : Tree) : Prop := ∀ c ∈ t.literals, isLiteralChar c = true

variable {x y t u : Tree} {xs ys : List Tree} {k : Nat} {lines lines' : List String}

/-- What a tree has if all its children have it, all trees have. -/
theorem induction_children {P : Tree → Prop} (step : ∀ t, (∀ x ∈ t.children, P x) → P t)
    (t : Tree) : P t := by
  induction t with
  | literal c => exact step _ (by simp [children])
  | sequence x y hx hy | alternative x y hx hy => exact step _ (by simp [children, hx, hy])
  | star x hx | optional x hx => exact step _ (by simp [children, hx])

theorem Alphanumeric.of_mem_children (ht : t.Alphanumeric) (hx : x ∈ t.children) :
    x.Alphanumeric := by
  intro c hc
  apply ht
  cases t <;> simp only [children, List.mem_cons, List.not_mem_nil, or_false] at hx
  case sequence | alternative =>
    rcases hx with rfl | rfl <;> simp [literals, hc]
  case star | optional =>
    subst hx
    exact hc

theorem Alphanumeric.label_ne_newline (ht : t.Alphanumeric) : t.label ≠ '\n' := by
  cases t with
  | literal c => exact ne_of_isLiteralChar (ht c (by simp [literals])) rfl
  | _ => simp [label]

theorem linesAt_eq (t : Tree) : t.linesAt k =
    (spaces k ++ String.singleton t.label) :: t.children.flatMap (linesAt (k + treeIndent)) := by
  cases t <;> simp [linesAt, children]

theorem isLine_of_mem_linesAt (ht : t.Alphanumeric) : ∀ line ∈ t.linesAt k, IsLine line := by
  induction t using induction_children generalizing k with
  | step t ih =>
    rw [linesAt_eq, List.forall_mem_cons]
    constructor
    · exact isLine_append.mpr ⟨isLine_spaces, isLine_singleton.mpr ht.label_ne_newline⟩
    · intro line hline
      obtain ⟨x, hx, hline⟩ := List.mem_flatMap.mp hline
      exact ih x hx (ht.of_mem_children hx) line hline

/-- How many children a node with the sign `c` has. -/
def arity (c : Char) : Nat :=
  if c = '.' ∨ c = '|' then 2 else if c = '*' ∨ c = '?' then 1 else 0

theorem Alphanumeric.length_children (ht : t.Alphanumeric) :
    t.children.length = arity t.label := by
  cases t with
  | literal c =>
    have hc : isLiteralChar c = true := ht c (by simp [literals])
    have hsign : ∀ d ∈ ['.', '|', '*', '?'], c ≠ d := by
      intro d hd
      apply ne_of_isLiteralChar hc
      simp only [List.mem_cons, List.not_mem_nil, or_false] at hd
      rcases hd with rfl | rfl | rfl | rfl <;> rfl
    simp only [List.forall_mem_cons] at hsign
    simp [children, label, arity, hsign]
  | _ => rfl

/-- A tree is its root's sign and its children. -/
theorem eq_of_children_eq (h : x.label = y.label) (hc : x.children = y.children) : x = y := by
  cases x <;> cases y <;> simp_all [label, children]

/-- The text of `x` can be told from what follows. -/
def ReadBack (x : Tree) : Prop :=
  ∀ {y : Tree} {k : Nat} {lines lines' : List String}, y.Alphanumeric →
    x.linesAt k ++ lines = y.linesAt k ++ lines' → x = y ∧ lines = lines'

/-- So can the texts of several trees one after the other. -/
theorem flatMap_linesAt_inj (hxs : ∀ x ∈ xs, x.ReadBack) (hys : ∀ y ∈ ys, y.Alphanumeric)
    (hlength : xs.length = ys.length)
    (h : xs.flatMap (linesAt k) ++ lines = ys.flatMap (linesAt k) ++ lines') :
    xs = ys ∧ lines = lines' := by
  induction xs generalizing ys with
  | nil =>
    obtain rfl := List.length_eq_zero_iff.mp hlength.symm
    exact ⟨rfl, h⟩
  | cons x xs ih =>
    cases ys with
    | nil => simp at hlength
    | cons y ys =>
      simp only [List.forall_mem_cons] at hxs hys
      simp only [List.flatMap_cons, List.append_assoc] at h
      obtain ⟨rfl, hrest⟩ := hxs.1 hys.1 h
      obtain ⟨rfl, hlines⟩ := ih hxs.2 hys.2 (by simpa using hlength) hrest
      exact ⟨rfl, hlines⟩

theorem Alphanumeric.readBack (hx : x.Alphanumeric) : x.ReadBack := by
  induction x using induction_children with
  | step x ih =>
    intro y k lines lines' hy h
    rw [linesAt_eq x, linesAt_eq y, List.cons_append, List.cons_append, List.cons.injEq,
      String.append_right_inj] at h
    obtain ⟨hlabel, hrest⟩ := h
    have hlabel : x.label = y.label := by
      simpa using congrArg String.toList hlabel
    have hlength : x.children.length = y.children.length := by
      rw [hx.length_children, hy.length_children, hlabel]
    obtain ⟨hchildren, hlines⟩ := flatMap_linesAt_inj
      (fun z hz => ih z hz (hx.of_mem_children hz)) (fun z hz => hy.of_mem_children hz)
      hlength hrest
    exact ⟨eq_of_children_eq hlabel hchildren, hlines⟩

/-- **The dump of a tree tells the tree.** -/
theorem dump_inj (ht : t.Alphanumeric) (hu : u.Alphanumeric) : t.dump = u.dump ↔ t = u := by
  rw [dump, dump, unlines_inj (isLine_of_mem_linesAt ht) (isLine_of_mem_linesAt hu)]
  constructor
  · intro h
    have hlines : t.linesAt 1 ++ [] = u.linesAt 1 ++ [] := by rw [h]
    exact (ht.readBack hu hlines).1
  · rintro rfl
    rfl

end Tree

/-! ## Rows under their numbers -/

section Table

variable {α : Type} {f g : Nat → List α} {n m q : Nat}

/-- The entries of the rows `f 0`, `f 1` and so on, `n` rows in all, each with its row's number. -/
def table (n : Nat) (f : Nat → List α) : List (Nat × α) :=
  (List.range n).flatMap fun q => (f q).map fun x => (q, x)

theorem mem_table {x : α} : (q, x) ∈ table n f ↔ q < n ∧ x ∈ f q := by
  simp [table]

theorem row_table : ((table n f).filter fun e => e.1 = q).map Prod.snd =
    if q < n then f q else [] := by
  have hrow : ∀ p, ((f p).map fun x => (p, x)).filter (fun e => e.1 = q) =
      if p = q then (f p).map fun x => (p, x) else [] := by
    intro p
    by_cases hp : p = q <;> simp [hp, List.filter_map, Function.comp_def]
  induction n with
  | zero => simp [table]
  | succ n ih =>
    have hsucc : table (n + 1) f = table n f ++ (f n).map fun x => (n, x) := by
      simp [table, List.range_succ]
    rw [hsucc, List.filter_append, List.map_append, ih, hrow]
    by_cases hq : n = q
    · subst hq
      simp [Function.comp_def]
    · have hlt : q < n + 1 ↔ q < n := by omega
      simp [hq, hlt]

/-- A table tells its rows, where there is nothing beyond its last one. -/
theorem table_inj (hf : ∀ q, n ≤ q → f q = []) (hg : ∀ q, m ≤ q → g q = [])
    (h : table n f = table m g) : f = g := by
  have hrow : ∀ {n : Nat} {f : Nat → List α}, (∀ q, n ≤ q → f q = []) → ∀ q,
      ((table n f).filter fun e => e.1 = q).map Prod.snd = f q := by
    intro n f hf q
    rw [row_table]
    split
    · rfl
    · next hq => exact (hf q (Nat.not_lt.mp hq)).symm
  funext q
  rw [← hrow hf q, h, hrow hg q]

end Table

/-! ## Nondeterministic automata -/

theorem Label.name_injective : Function.Injective Label.name := by
  -- no symbol is as long as the word
  have hlength : ∀ c : Char, "Epsilon" ≠ String.singleton c := by
    intro c h
    have hlist := congrArg String.toList h
    simp at hlist
  intro l l' h
  cases l with
  | epsilon =>
    cases l' with
    | epsilon => rfl
    | symbol c => exact absurd h (hlength c)
  | symbol c =>
    cases l' with
    | epsilon => exact absurd h.symm (hlength c)
    | symbol d => simpa [name] using congrArg String.toList h

namespace Nfa

variable {a b : Nfa} {q r : Nat} {e e' : Edge} {l : Label}

theorem edgeLine_inj : edgeLine q e = edgeLine r e' ↔ q = r ∧ e = e' := by
  constructor
  · intro h
    unfold edgeLine at h
    simp only [← String.toList_inj, String.toList_append, List.append_assoc,
      List.append_cancel_left_eq] at h
    obtain ⟨hq, h⟩ := repr_append_inj (by simp) (by simp) h
    simp only [List.append_cancel_left_eq] at h
    obtain ⟨htarget, h⟩ := repr_append_inj (by simp) (by simp) h
    simp only [List.append_cancel_left_eq, String.toList_inj] at h
    exact ⟨hq, by cases e; cases e'; simp_all [Label.name_injective.eq_iff]⟩
  · rintro ⟨rfl, rfl⟩
    rfl

theorem edgeLines_eq : (a.rows.toList.zipIdx.flatMap fun row => row.1.map (edgeLine row.2)) =
    (table a.size a.edgesFrom).map fun e => edgeLine e.1 e.2 := by
  have hrows : a.rows.toList.zipIdx = (List.range a.size).map fun q => (a.edgesFrom q, q) := by
    apply List.ext_getElem?
    intro q
    by_cases hq : q < a.size <;> simp_all [size, edgesFrom]
  rw [hrows, table, List.map_flatMap, List.flatMap_map]
  simp [Function.comp_def]

theorem size_eq_of_headLines_eq (h : a.headLines = b.headLines) : a.size = b.size := by
  simp only [headLines, List.cons.injEq] at h
  obtain ⟨h, -⟩ := h
  simp only [← String.toList_inj, String.toList_append, List.append_assoc,
    List.append_cancel_left_eq] at h
  exact (repr_append_inj (by simp) (by simp) h).1

theorem isLine_of_mem_headLines : ∀ line ∈ a.headLines, IsLine line := by
  simp [headLines, IsLine]

theorem isLine_edgeLine (h : ∀ c, e.label = .symbol c → c ≠ '\n') : IsLine (edgeLine q e) := by
  have hname : IsLine e.label.name := by
    cases hl : e.label with
    | epsilon => simp [Label.name, IsLine]
    | symbol c => exact isLine_singleton.mpr (h c hl)
  unfold edgeLine
  simpa [IsLine] using hname

/-- What the dump consists of. -/
def dumpLines (a : Nfa) : List String :=
  a.headLines ++ (table a.size a.edgesFrom).map fun e => edgeLine e.1 e.2

theorem dump_eq : a.dump = unlines a.dumpLines := by
  rw [dump, edgeLines_eq, dumpLines]

theorem isLine_of_mem_dumpLines (ha : a.Shaped) (h : '\n' ∉ a.alphabet) :
    ∀ line ∈ a.dumpLines, IsLine line := by
  rw [dumpLines, List.forall_mem_append]
  refine ⟨isLine_of_mem_headLines, ?_⟩
  intro line hline
  obtain ⟨⟨q, e⟩, he, rfl⟩ := List.mem_map.mp hline
  apply isLine_edgeLine
  rintro c hl rfl
  have hstep : a.Step q (.symbol '\n') e.target := by
    rw [Step, ← hl]
    exact (mem_table.mp he).2
  exact h ((ha.mem_alphabet '\n').mpr ⟨q, _, hstep⟩)

/-- **The dump of a nondeterministic automaton tells the automaton.** -/
theorem dump_inj (ha : a.Shaped) (hb : b.Shaped) (hal : '\n' ∉ a.alphabet)
    (hbl : '\n' ∉ b.alphabet) : a.dump = b.dump ↔ a = b := by
  rw [dump_eq, dump_eq,
    unlines_inj (isLine_of_mem_dumpLines ha hal) (isLine_of_mem_dumpLines hb hbl)]
  constructor
  · intro h
    obtain ⟨hhead, hedges⟩ := List.append_inj h rfl
    have hline : Function.Injective fun e : Nat × Edge => edgeLine e.1 e.2 := fun e e' he =>
      Prod.ext_iff.mpr (edgeLine_inj.mp he)
    have hrows := table_inj (fun _ => edgesFrom_of_size_le) (fun _ => edgesFrom_of_size_le)
      (List.map_injective_iff.mpr hline hedges)
    exact ha.ext_edges hb (size_eq_of_headLines_eq hhead) fun q _ => congrFun hrows q
  · rintro rfl
    rfl

end Nfa

/-! ## Deterministic automata -/

namespace Dfa

variable {d e : Dfa} {q r : Nat} {c : Char}

theorem isLine_of_mem_headLines : ∀ line ∈ d.headLines, IsLine line := by
  simp [headLines, IsLine, String.toList_join]

theorem eq_of_headLines_eq (h : d.headLines = e.headLines) :
    d.start = e.start ∧ d.acceptingStates = e.acceptingStates := by
  simp only [headLines, List.cons.injEq, String.append_right_inj, join_spaced_inj, repr_inj] at h
  exact ⟨h.1, h.2.1⟩

theorem isLine_transitionLine (h : c ≠ '\n') : IsLine (transitionLine (q, c, r)) := by
  unfold transitionLine
  simp [IsLine, h.symm]

theorem transitionLine_injective : Function.Injective transitionLine := by
  rintro ⟨q, c, r⟩ ⟨q', c', r'⟩ h
  unfold transitionLine at h
  simp only [← String.toList_inj, String.toList_append, String.toList_singleton, List.append_assoc,
    List.append_cancel_left_eq] at h
  obtain ⟨rfl, h⟩ := repr_append_inj (by simp) (by simp) h
  simp only [List.append_cancel_left_eq, List.singleton_append, List.cons.injEq,
    String.toList_inj, repr_inj] at h
  rw [h.1, h.2]

theorem transitions_eq : d.transitions = table d.stateCount d.movesFrom := rfl

theorem mem_alphabet_of_mem_transitions (h : (q, c, r) ∈ d.transitions) : c ∈ d.alphabet := by
  obtain ⟨hq, hmove⟩ := mem_table.mp h
  rw [movesFrom, List.getElem?_eq_getElem hq] at hmove
  simp only [alphabet, SymbolSet.mem_ofList, List.mem_map, List.mem_flatMap]
  exact ⟨(c, r), ⟨_, List.getElem_mem hq, hmove⟩, rfl⟩

/-- What the dump consists of. -/
def dumpLines (d : Dfa) : List String := d.headLines ++ d.transitions.map transitionLine

theorem isLine_of_mem_dumpLines (h : '\n' ∉ d.alphabet) : ∀ line ∈ d.dumpLines, IsLine line := by
  rw [dumpLines, List.forall_mem_append]
  refine ⟨isLine_of_mem_headLines, ?_⟩
  intro line hline
  obtain ⟨⟨q, c, r⟩, hmem, rfl⟩ := List.mem_map.mp hline
  exact isLine_transitionLine (ne_of_mem_of_not_mem (mem_alphabet_of_mem_transitions hmem) h)

/-- The states are those that runs lead to, so their number need not be told. -/
def Entered (d : Dfa) : Prop := ∀ q, q < d.stateCount ↔ ∃ w, d.run w = some q

theorem entered_ofNfa {a : Nfa} (ha : a.Built) : (ofNfa a).Entered := by
  refine fun q => ⟨(trim_ofNfa ha).entered q, ?_⟩
  rintro ⟨w, hw⟩
  rw [run_ofNfa ha.shaped] at hw
  split at hw
  · cases hw
  · next hne =>
    obtain rfl := Option.some.inj hw
    exact (Nfa.bijOn_stateNumber ha.shaped).mapsTo
      (Nfa.active_mem_subsetStates (Bool.eq_false_iff.mpr hne))

theorem getElem?_states :
    d.states[q]? = if q < d.stateCount then some ⟨d.isAccepting q, d.movesFrom q⟩ else none := by
  by_cases hq : q < d.states.length <;> simp [stateCount, isAccepting, movesFrom, hq]

theorem mem_acceptingStates : q ∈ d.acceptingStates ↔ d.isAccepting q = true := by
  have hlt : d.isAccepting q = true → q < d.stateCount := by
    intro h
    by_contra hq
    rw [isAccepting_of_stateCount_le (Nat.not_lt.mp hq)] at h
    cases h
  simpa [acceptingStates] using hlt

/-- Automata without superfluous states are the same if they have the same transitions and accept
in the same states. -/
theorem Entered.ext (hd : d.Entered) (he : e.Entered) (hstart : d.start = e.start)
    (haccepting : d.acceptingStates = e.acceptingStates) (hmoves : d.movesFrom = e.movesFrom) :
    d = e := by
  have hrun : d.run = e.run := by
    have htransition : d.transition = e.transition := by
      funext q c
      rw [transition, transition, hmoves]
    funext w
    simp only [run, runFrom, hstart, htransition]
  have hlt : ∀ q, q < d.stateCount ↔ q < e.stateCount := by
    intro q
    rw [hd, he, hrun]
  have hisAccepting : ∀ q, d.isAccepting q = e.isAccepting q := by
    intro q
    rw [Bool.eq_iff_iff, ← mem_acceptingStates, haccepting, mem_acceptingStates]
  have hstates : d.states = e.states := by
    apply List.ext_getElem?
    intro q
    simp only [getElem?_states, hlt, hisAccepting, hmoves]
  cases d
  cases e
  simp_all

/-- **The dump of a deterministic automaton tells the automaton.** -/
theorem dump_inj (hd : d.Entered) (he : e.Entered) (hdl : '\n' ∉ d.alphabet)
    (hel : '\n' ∉ e.alphabet) : d.dump = e.dump ↔ d = e := by
  constructor
  · intro h
    have hlines : d.dumpLines = e.dumpLines :=
      (unlines_inj (isLine_of_mem_dumpLines hdl) (isLine_of_mem_dumpLines hel)).mp h
    obtain ⟨hhead, htransitions⟩ := List.append_inj hlines rfl
    obtain ⟨hstart, haccepting⟩ := eq_of_headLines_eq hhead
    have htransitions := List.map_injective_iff.mpr transitionLine_injective htransitions
    rw [transitions_eq, transitions_eq] at htransitions
    have hmoves := table_inj (fun _ => movesFrom_of_stateCount_le)
      (fun _ => movesFrom_of_stateCount_le) htransitions
    exact hd.ext he hstart haccepting hmoves
  · rintro rfl
    rfl

end Dfa

/-! ## The dumps of a pattern -/

theorem newline_notMem_alphabet {p : List Char} {t : Tree} (h : parse p = .ok t) :
    '\n' ∉ (Nfa.ofTree t).alphabet := by
  rw [Nfa.alphabet_ofTree, SymbolSet.mem_ofList]
  intro hmem
  exact ne_of_isLiteralChar (isLiteralChar_of_mem_literals h hmem) rfl rfl

/-- **None of the three dumps loses anything.** The trees of two patterns have the same dump exactly
if they are the same, and so do their automata of either kind. -/
theorem dumps_faithful {p q : List Char} {t u : Tree} (hp : parse p = .ok t)
    (hq : parse q = .ok u) :
    (t.dump = u.dump ↔ t = u) ∧
    ((Nfa.ofTree t).dump = (Nfa.ofTree u).dump ↔ Nfa.ofTree t = Nfa.ofTree u) ∧
    ∃ d e, compile p = .ok d ∧ compile q = .ok e ∧ (d.dump = e.dump ↔ d = e) := by
  have ht := Nfa.built_ofTree t
  have hu := Nfa.built_ofTree u
  have htl := newline_notMem_alphabet hp
  have hul := newline_notMem_alphabet hq
  refine ⟨?_, ?_, _, _, compile_of_parse hp, compile_of_parse hq, ?_⟩
  · exact Tree.dump_inj (fun _ => isLiteralChar_of_mem_literals hp)
      (fun _ => isLiteralChar_of_mem_literals hq)
  · exact Nfa.dump_inj ht.shaped hu.shaped htl hul
  · rw [← Dfa.alphabet_ofNfa ht] at htl
    rw [← Dfa.alphabet_ofNfa hu] at hul
    exact Dfa.dump_inj (Dfa.entered_ofNfa ht) (Dfa.entered_ofNfa hu) htl hul

/-- A group tells two trees of one automaton apart. -/
theorem dumps_faithful_grouping :
    ∃ t u, parse "(ab)E".toList = .ok t ∧ parse "abE".toList = .ok u ∧ t.dump ≠ u.dump ∧
      (Nfa.ofTree t).dump = (Nfa.ofTree u).dump := by
  have hp : parse "(ab)E".toList =
      .ok (.sequence (.sequence (.literal 'a') (.literal 'b')) (.literal 'E')) := by decide
  have hq : parse "abE".toList =
      .ok (.sequence (.literal 'a') (.sequence (.literal 'b') (.literal 'E'))) := by decide
  obtain ⟨htree, hnfa, -⟩ := dumps_faithful hp hq
  refine ⟨_, _, hp, hq, mt htree.mp (by decide), hnfa.mpr ?_⟩
  exact (Nfa.Shaped.symbol 'a').concat_assoc (.symbol 'b') (.symbol 'E')

end PatternAutomata
