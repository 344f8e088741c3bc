import PatternAutomata.Proofs.Outcomes
import PatternAutomata.Proofs.RandomPatterns
/-!
# The choices behind a drawn pattern

`Chosen` tells from the answers alone which phrase they make, rule by rule: which of them adds a
branch, an item, an operator or a group, and where the answers of the parts lie among those of the
whole. Drawing does just that (`outcome_drawPhrase`). Since every branch, item and group uses up one
unit of depth, there is a limit to how deep the parentheses nest and to how high the tree grows
(`drawPattern_parses_within`).
-/
namespace PatternAutomata

/-! ## Depth -/

/-- The number of nodes on the longest way down from the root. -/
def Tree.height : Tree → Nat
  | literal _ => 1
  | sequence x y | alternative x y => max x.height y.height + 1
  | star x | optional x => x.height + 1

/-- The parentheses of `s` are balanced, and nowhere are more than `n` of them open. -/
structure NestsWithin (n : Nat) (s : List Char) : Prop where
  balanced : s.count '(' = s.count ')'
  count_open_le : ∀ u, u <+: s → u.count '(' ≤ u.count ')' + n

namespace NestsWithin

variable {m n : Nat} {s r : List Char} {c : Char}

theorem mono (h : NestsWithin m s) (hmn : m ≤ n) : NestsWithin n s where
  balanced := h.balanced
  count_open_le u hu := Nat.le_trans (h.count_open_le u hu) (Nat.add_le_add_left hmn _)

theorem append (hs : NestsWithin n s) (hr : NestsWithin n r) : NestsWithin n (s ++ r) where
  balanced := by rw [List.count_append, List.count_append, hs.balanced, hr.balanced]
  count_open_le u hu := by
    -- the prefix ends inside of the first part or after it
    rcases List.prefix_or_prefix_of_prefix hu (List.prefix_append s r) with hus | ⟨v, rfl⟩
    · exact hs.count_open_le u hus
    · have hv : v <+: r := (List.prefix_append_right_inj s).mp hu
      have hbound : v.count '(' ≤ v.count ')' + n := hr.count_open_le v hv
      rw [List.count_append, List.count_append, hs.balanced]
      omega

theorem singleton (hopen : c ≠ '(') (hclose : c ≠ ')') : NestsWithin n [c] where
  balanced := by simp [hopen, hclose]
  count_open_le u hu := by
    have hcount : u.count '(' ≤ [c].count '(' := hu.sublist.count_le '('
    have hzero : [c].count '(' = 0 := by simp [hopen]
    omega

theorem group (h : NestsWithin n s) : NestsWithin (n + 1) ('(' :: s ++ [')']) where
  balanced := by simp [h.balanced]
  count_open_le u hu := by
    rcases List.prefix_concat_iff.mp hu with rfl | hu
    · simp [h.balanced]
    · rcases List.prefix_cons_iff.mp hu with rfl | ⟨v, rfl, hv⟩
      · exact Nat.zero_le _
      · have hbound : v.count '(' ≤ v.count ')' + n := h.count_open_le v hv
        rw [List.count_cons_self, List.count_cons_of_ne (by decide)]
        omega

end NestsWithin

/-! ## Choices -/

/-- The answers `vs` make the phrase at this depth. Without depth left there is a single branch of a
single item without groups, and nothing is asked but its operator and its literal; otherwise zero
is the answer that adds a branch, an item or a group. -/
inductive Chosen (literals : List Char) : Rule → Nat → List Nat → Phrase → Prop
  | onlyBranch {vs : List Nat} {p : Phrase} :
      Chosen literals .sequence 0 vs p → Chosen literals .alternative 0 vs p
  | lastBranch {depth v : Nat} {vs : List Nat} {p : Phrase} :
      Chosen literals .sequence (depth + 1) vs p → v ≠ 0 → v < 3 →
      Chosen literals .alternative (depth + 1) (vs ++ [v]) p
  | branch {depth : Nat} {vs us : List Nat} {first rest : Phrase} :
      Chosen literals .sequence (depth + 1) vs first → Chosen literals .alternative depth us rest →
      Chosen literals .alternative (depth + 1) (vs ++ 0 :: us)
        ⟨first.text ++ '|' :: rest.text, .alternative first.tree rest.tree⟩
  | onlyItem {vs : List Nat} {p : Phrase} :
      Chosen literals .quantified 0 vs p → Chosen literals .sequence 0 vs p
  | lastItem {depth v : Nat} {vs : List Nat} {p : Phrase} :
      Chosen literals .quantified (depth + 1) vs p → v ≠ 0 → v < 2 →
      Chosen literals .sequence (depth + 1) (vs ++ [v]) p
  | item {depth : Nat} {vs us : List Nat} {first rest : Phrase} :
      Chosen literals .quantified (depth + 1) vs first → Chosen literals .sequence depth us rest →
      Chosen literals .sequence (depth + 1) (vs ++ 0 :: us)
        ⟨first.text ++ rest.text, .sequence first.tree rest.tree⟩
  | star {depth : Nat} {vs : List Nat} {p : Phrase} : Chosen literals .atom depth vs p →
      Chosen literals .quantified depth (vs ++ [0]) ⟨p.text ++ ['*'], .star p.tree⟩
  | optional {depth : Nat} {vs : List Nat} {p : Phrase} : Chosen literals .atom depth vs p →
      Chosen literals .quantified depth (vs ++ [1]) ⟨p.text ++ ['?'], .optional p.tree⟩
  | plain {depth v : Nat} {vs : List Nat} {p : Phrase} : Chosen literals .atom depth vs p →
      2 ≤ v → v < 4 → Chosen literals .quantified depth (vs ++ [v]) p
  | onlyLiteral {i : Nat} {c : Char} : literals[i]? = some c →
      Chosen literals .atom 0 [i] ⟨[c], .literal c⟩
  | literal {depth v i : Nat} {c : Char} : v ≠ 0 → v < 3 → literals[i]? = some c →
      Chosen literals .atom (depth + 1) [v, i] ⟨[c], .literal c⟩
  | group {depth : Nat} {vs : List Nat} {p : Phrase} : Chosen literals .alternative depth vs p →
      Chosen literals .atom (depth + 1) (0 :: vs) ⟨'(' :: p.text ++ [')'], p.tree⟩

section
variable {literals : List Char} {rule : Rule} {depth : Nat} {vs : List Nat} {p : Phrase}

theorem outcome_drawLiteral : (drawPhrase.drawLiteral literals).Outcome vs (.ok p) ↔
    ∃ i c, vs = [i] ∧ literals[i]? = some c ∧ p = ⟨[c], .literal c⟩ := by
  unfold drawPhrase.drawLiteral
  simp only [Draw.outcome_bind_pure_ok, Draw.outcome_pick_ok]
  constructor
  · rintro ⟨c, ⟨i, rfl, hi⟩, rfl⟩
    exact ⟨i, c, rfl, hi, rfl⟩
  · rintro ⟨i, c, rfl, hi, rfl⟩
    exact ⟨c, ⟨i, rfl, hi⟩, rfl⟩

/-- One phrase, and one time in `n` another that is joined to it. -/
theorem outcome_joined {first rest : Draw Phrase} {join : Phrase → Phrase → Phrase} {n : Nat} :
    (do
      let p ← first
      if ← Draw.oneIn n then
        let q ← rest
        return join p q
      else
        return p).Outcome vs (.ok p) ↔
      (∃ us ws q r, vs = us ++ 0 :: ws ∧ 0 < n ∧ first.Outcome us (.ok q) ∧
        rest.Outcome ws (.ok r) ∧ p = join q r) ∨
      ∃ us v, vs = us ++ [v] ∧ v ≠ 0 ∧ v < n ∧ first.Outcome us (.ok p) := by
  rw [Draw.outcome_bind_ok]
  simp only [Draw.outcome_oneIn_ite, Draw.outcome_bind_pure_ok, Draw.outcome_pure_ok]
  constructor
  · rintro ⟨us, _, q, rfl, hfirst, ⟨ws, rfl, hn, r, hrest, rfl⟩ | ⟨v, _, rfl, hzero, hv, rfl, rfl⟩⟩
    · exact .inl ⟨us, ws, q, r, rfl, hn, hfirst, hrest, rfl⟩
    · exact .inr ⟨us, v, rfl, hzero, hv, hfirst⟩
  · rintro (⟨us, ws, q, r, rfl, hn, hfirst, hrest, rfl⟩ | ⟨us, v, rfl, hzero, hv, hfirst⟩)
    · exact ⟨us, 0 :: ws, q, rfl, hfirst, .inl ⟨ws, rfl, hn, r, hrest, rfl⟩⟩
    · exact ⟨us, [v], p, rfl, hfirst, .inr ⟨v, [], rfl, hzero, hv, rfl, rfl⟩⟩

/-- **The answers are the choices.** The induction follows the rules as they are drawn; in each case
the answers are split into those of the parts and the one that decides. -/
theorem outcome_drawPhrase :
    (drawPhrase literals rule depth).Outcome vs (.ok p) ↔ Chosen literals rule depth vs p := by
  induction rule, depth using drawPhrase.induct generalizing vs p with
  | case1 ih =>
    rw [drawPhrase, ih]
    constructor
    · exact .onlyBranch
    · intro h
      cases h with
      | onlyBranch h => exact h
  | case2 depth ihFirst ihRest =>
    rw [drawPhrase, outcome_joined]
    simp only [ihFirst, ihRest]
    constructor
    · rintro (⟨us, ws, first, rest, rfl, -, hfirst, hrest, rfl⟩ | ⟨us, v, rfl, hzero, hv, hfirst⟩)
      · exact .branch hfirst hrest
      · exact .lastBranch hfirst hzero hv
    · intro h
      cases h with
      | lastBranch hfirst hzero hv => exact .inr ⟨_, _, rfl, hzero, hv, hfirst⟩
      | branch hfirst hrest => exact .inl ⟨_, _, _, _, rfl, by decide, hfirst, hrest, rfl⟩
  | case3 ih =>
    rw [drawPhrase, ih]
    constructor
    · exact .onlyItem
    · intro h
      cases h with
      | onlyItem h => exact h
  | case4 depth ihFirst ihRest =>
    rw [drawPhrase, outcome_joined]
    simp only [ihFirst, ihRest]
    constructor
    · rintro (⟨us, ws, first, rest, rfl, -, hfirst, hrest, rfl⟩ | ⟨us, v, rfl, hzero, hv, hfirst⟩)
      · exact .item hfirst hrest
      · exact .lastItem hfirst hzero hv
    · intro h
      cases h with
      | lastItem hfirst hzero hv => exact .inr ⟨_, _, rfl, hzero, hv, hfirst⟩
      | item hfirst hrest => exact .inl ⟨_, _, _, _, rfl, by decide, hfirst, hrest, rfl⟩
  | case5 depth ih =>
    rw [drawPhrase, Draw.outcome_bind_ok]
    simp only [Draw.outcome_inRange_bind, ih]
    constructor
    · rintro ⟨us, _, atom, rfl, hatom, v, ws, rfl, -, hv, h⟩
      rcases v with _ | _ | v
      · obtain ⟨rfl, rfl⟩ := Draw.outcome_pure_ok.mp h
        exact .star hatom
      · obtain ⟨rfl, rfl⟩ := Draw.outcome_pure_ok.mp h
        exact .optional hatom
      · obtain ⟨rfl, rfl⟩ := Draw.outcome_pure_ok.mp h
        exact .plain hatom (Nat.le_add_left 2 v) hv
    · intro h
      cases h with
      | star hatom =>
        exact ⟨_, _, _, rfl, hatom, 0, [], rfl, by decide, by decide, .done _⟩
      | optional hatom =>
        exact ⟨_, _, _, rfl, hatom, 1, [], rfl, by decide, by decide, .done _⟩
      | @plain _ v _ _ hatom htwo hv =>
        refine ⟨_, _, _, rfl, hatom, v, [], rfl, Nat.zero_le v, hv, ?_⟩
        obtain ⟨k, rfl⟩ := Nat.exists_eq_add_of_le' htwo
        exact .done _
  | case6 =>
    rw [drawPhrase, outcome_drawLiteral]
    constructor
    · rintro ⟨i, c, rfl, hi, rfl⟩
      exact .onlyLiteral hi
    · intro h
      cases h with
      | onlyLiteral hi => exact ⟨_, _, rfl, hi, rfl⟩
  | case7 depth ih =>
    rw [drawPhrase, Draw.outcome_oneIn_ite]
    simp only [Draw.outcome_bind_pure_ok, ih, outcome_drawLiteral]
    constructor
    · rintro (⟨us, rfl, -, body, hbody, rfl⟩ | ⟨v, _, rfl, hzero, hv, i, c, rfl, hi, rfl⟩)
      · exact .group hbody
      · exact .literal hzero hv hi
    · intro h
      cases h with
      | group hbody => exact .inl ⟨_, rfl, by decide, _, hbody, rfl⟩
      | literal hzero hv hi => exact .inr ⟨_, _, rfl, hzero, hv, _, _, rfl, hi, rfl⟩

/-! ## What the choices make -/

/-- The text of the choices derives their tree. -/
theorem Chosen.derived (hl : areLiterals literals = true) (h : Chosen literals rule depth vs p) :
    p.Derived rule := by
  obtain ⟨_, hp, hderived⟩ :=
    Draw.always_iff.mp (always_drawPhrase hl rule depth) vs _ (outcome_drawPhrase.mpr h)
  cases hp
  exact hderived

theorem Chosen.mem_literals (h : Chosen literals rule depth vs p) :
    ∀ c ∈ p.tree.literals, c ∈ literals := by
  induction h with
  | onlyBranch _ ih | lastBranch _ _ _ ih | onlyItem _ ih | lastItem _ _ _ ih => exact ih
  | star _ ih | optional _ ih | plain _ _ _ ih | group _ ih => exact ih
  | branch _ _ ihFirst ihRest | item _ _ ihFirst ihRest =>
    intro c hc
    rcases List.mem_append.mp hc with hc | hc
    · exact ihFirst c hc
    · exact ihRest c hc
  | onlyLiteral hi | literal _ _ hi =>
    intro c hc
    rw [List.mem_singleton.mp hc]
    exact List.mem_of_getElem? hi

theorem Chosen.nestsWithin (hl : areLiterals literals = true)
    (h : Chosen literals rule depth vs p) : NestsWithin depth p.text := by
  have hliteral : ∀ {i : Nat} {c : Char} (n : Nat), literals[i]? = some c → NestsWithin n [c] := by
    intro i c n hi
    have hc : isLiteralChar c = true := isLiteralChar_of_mem hl (List.mem_of_getElem? hi)
    exact .singleton (ne_of_isLiteralChar hc rfl) (ne_of_isLiteralChar hc rfl)
  induction h with
  | onlyBranch _ ih | lastBranch _ _ _ ih | onlyItem _ ih | lastItem _ _ _ ih => exact ih
  | plain _ _ _ ih => exact ih
  | star _ ih | optional _ ih => exact ih.append (.singleton (by decide) (by decide))
  | branch _ _ ihFirst ihRest =>
    refine ihFirst.append (.append (s := ['|']) ?_ (ihRest.mono (Nat.le_succ _)))
    exact .singleton (by decide) (by decide)
  | item _ _ ihFirst ihRest => exact ihFirst.append (ihRest.mono (Nat.le_succ _))
  | onlyLiteral hi | literal _ _ hi => exact hliteral _ hi
  | group _ ih => exact ih.group

/-- The greatest height of a tree drawn by a rule: a literal with an operator if there is no depth
left, and above that three nodes for each unit of depth, the last of them one for each rule. -/
def heightLimit : Rule → Nat → Nat
  | .atom, 0 => 1
  | _, 0 => 2
  | rule, depth + 1 => 3 * depth + 2 + rule.rank

theorem heightLimit_le (rule : Rule) (depth : Nat) : heightLimit rule depth ≤ 3 * depth + 2 := by
  cases depth with
  | zero => cases rule <;> simp [heightLimit]
  | succ depth =>
    cases rule <;>
    · simp only [heightLimit, Rule.rank]
      omega

theorem heightLimit_quantified (depth : Nat) :
    heightLimit .quantified depth = heightLimit .atom depth + 1 := by
  cases depth <;> rfl

theorem Chosen.height_le (h : Chosen literals rule depth vs p) :
    p.tree.height ≤ heightLimit rule depth := by
  induction h with
  | onlyBranch _ ih | onlyItem _ ih => exact ih
  | lastBranch _ _ _ ih | lastItem _ _ _ ih => exact Nat.le_succ_of_le ih
  | @branch depth _ _ _ _ _ _ ihFirst ihRest =>
    have hrest : heightLimit .alternative depth ≤ 3 * depth + 2 := heightLimit_le _ depth
    simp only [heightLimit, Rule.rank] at ihFirst
    simp only [Tree.height, heightLimit, Rule.rank]
    omega
  | @item depth _ _ _ _ _ _ ihFirst ihRest =>
    have hrest : heightLimit .sequence depth ≤ 3 * depth + 2 := heightLimit_le _ depth
    simp only [heightLimit, Rule.rank] at ihFirst
    simp only [Tree.height, heightLimit, Rule.rank]
    omega
  | star _ ih | optional _ ih =>
    rw [heightLimit_quantified]
    exact Nat.succ_le_succ ih
  | plain _ _ _ ih =>
    rw [heightLimit_quantified]
    exact Nat.le_succ_of_le ih
  | onlyLiteral _ => exact Nat.le_refl 1
  | literal _ _ _ => exact Nat.succ_le_of_lt (by simp [heightLimit])
  | @group depth _ _ _ ih => exact Nat.le_trans ih (heightLimit_le _ depth)

/-! ## Drawn patterns -/

/-- **A drawn pattern parses to the choices behind it, within the limits of its depth.** Whatever
the answers, a pattern comes out. It is the text of the choices that the answers are, it parses to
their tree, its literals are the given ones, its parentheses nest no deeper than `maxDepth`, and the
height of its tree grows by three for each unit of depth. -/
theorem drawPattern_parses_within (hl : areLiterals literals = true) (maxDepth : Nat) :
    (∀ vs r, (drawPattern maxDepth literals).Outcome vs r ↔
      ∃ p : Phrase, r = .ok p ∧ Chosen literals .alternative maxDepth vs p) ∧
    (∀ (σ : Type) (source : Draw.Source σ) (s : σ), ∃ vs p,
      (source.run (drawPattern maxDepth literals) s).1 = .ok p ∧
      Chosen literals .alternative maxDepth vs p) ∧
    ∀ vs p, Chosen literals .alternative maxDepth vs p →
      parse p.text = .ok p.tree ∧ (∀ c ∈ p.tree.literals, c ∈ literals) ∧
      NestsWithin maxDepth p.text ∧ p.tree.height ≤ 3 * maxDepth + 2 := by
  have houtcome : ∀ vs r, (drawPattern maxDepth literals).Outcome vs r ↔
      ∃ p : Phrase, r = .ok p ∧ Chosen literals .alternative maxDepth vs p := by
    intro vs r
    constructor
    · intro hr
      obtain ⟨p, rfl, -⟩ := Draw.always_iff.mp (always_drawPattern hl maxDepth) vs r hr
      rw [drawPattern, if_pos hl] at hr
      exact ⟨p, rfl, outcome_drawPhrase.mp hr⟩
    · rintro ⟨p, rfl, h⟩
      rw [drawPattern, if_pos hl]
      exact outcome_drawPhrase.mpr h
  refine ⟨houtcome, fun σ source s => ?_, fun vs p h => ?_⟩
  · obtain ⟨vs, hvs⟩ := source.outcome_run (drawPattern maxDepth literals) s
    obtain ⟨p, hp, h⟩ := (houtcome vs _).mp hvs
    exact ⟨vs, p, hp, h⟩
  · exact ⟨parse_of_derives (h.derived hl), h.mem_literals, h.nestsWithin hl,
      Nat.le_trans h.height_le (heightLimit_le .alternative maxDepth)⟩

/-- The one unit of depth serves for a group, for an item and for a branch. -/
theorem drawPattern_parses_within_group :
    areLiterals ['a', 'b'] = true ∧
    Chosen ['a', 'b'] .alternative 1 [0, 1, 0, 1, 0, 0, 2, 0, 1, 3]
      ⟨['(', 'b', '*', ')', '?', 'a', '|', 'b'],
        .alternative (.sequence (.optional (.star (.literal 'b'))) (.literal 'a')) (.literal 'b')⟩ ∧
    parse ['(', 'b', '*', ')', '?', 'a', '|', 'b'] = .ok
      (.alternative (.sequence (.optional (.star (.literal 'b'))) (.literal 'a')) (.literal 'b')) ∧
    NestsWithin 1 ['(', 'b', '*', ')', '?', 'a', '|', 'b'] := by
  have hliterals : areLiterals ['a', 'b'] = true := by decide
  have hgroup : Chosen ['a', 'b'] .quantified 1 ([0, 1, 0] ++ [1])
      ⟨['(', 'b', '*', ')', '?'], .optional (.star (.literal 'b'))⟩ :=
    .optional (.group (.onlyBranch (.onlyItem (.star (.onlyLiteral rfl)))))
  have hitem : Chosen ['a', 'b'] .sequence 0 ([0] ++ [2]) ⟨['a'], .literal 'a'⟩ :=
    .onlyItem (.plain (.onlyLiteral rfl) (by decide) (by decide))
  have hbranch : Chosen ['a', 'b'] .alternative 0 ([1] ++ [3]) ⟨['b'], .literal 'b'⟩ :=
    .onlyBranch (.onlyItem (.plain (.onlyLiteral rfl) (by decide) (by decide)))
  have hchosen := Chosen.branch (.item hgroup hitem) hbranch
  obtain ⟨hparse, -, hnests, -⟩ := (drawPattern_parses_within hliterals 1).2.2 _ _ hchosen
  exact ⟨hliterals, hchosen, hparse, hnests⟩

end
end PatternAutomata
