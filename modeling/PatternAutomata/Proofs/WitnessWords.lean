import PatternAutomata.Proofs.CompileLanguage
import PatternAutomata.Proofs.EndPositions
import PatternAutomata.Proofs.Outcomes
import PatternAutomata.Proofs.RandomWords
/-!
# Which words are drawn as witnesses

A star repeats its body three times at most, at each of its visits, and nothing else keeps a word of
the language from being drawn: the witnesses are the words with a derivation of at most three
repetitions (`Tree.canGive_witness`). All of them are members, so every matcher accepts them
(`Tree.witness_exact`).
-/
namespace PatternAutomata.Tree

open Draw

/-! ## Bounded repetition -/

/-- The word is derived from the tree with at most `n` repetitions at each visit of a star. -/
inductive MatchesUpTo (n : Nat) : Tree → List Char → Prop
  | literal (c : Char) : MatchesUpTo n (.literal c) [c]
  | sequence {x y : Tree} {u v : List Char} :
      MatchesUpTo n x u → MatchesUpTo n y v → MatchesUpTo n (.sequence x y) (u ++ v)
  | first {x y : Tree} {u : List Char} : MatchesUpTo n x u → MatchesUpTo n (.alternative x y) u
  | second {x y : Tree} {u : List Char} : MatchesUpTo n y u → MatchesUpTo n (.alternative x y) u
  | absent {x : Tree} : MatchesUpTo n (.optional x) []
  | present {x : Tree} {u : List Char} : MatchesUpTo n x u → MatchesUpTo n (.optional x) u
  | star {x : Tree} {ws : List (List Char)} :
      ws.length ≤ n → (∀ u ∈ ws, MatchesUpTo n x u) → MatchesUpTo n (.star x) ws.flatten

section
variable {t x : Tree} {w : List Char} {ws : List (List Char)} {m n : Nat}

theorem MatchesUpTo.matches (h : t.MatchesUpTo n w) : t.Matches w := by
  induction h with
  | literal c => exact .literal c
  | sequence _ _ hu hv => exact .sequence hu hv
  | first _ ih => exact .first ih
  | second _ ih => exact .second ih
  | absent => exact .absent
  | present _ ih => exact .present ih
  | star _ _ ih => exact matches_star_iff.mpr ⟨_, rfl, ih⟩

theorem MatchesUpTo.mono (h : t.MatchesUpTo m w) (hmn : m ≤ n) : t.MatchesUpTo n w := by
  induction h with
  | literal c => exact .literal c
  | sequence _ _ hu hv => exact .sequence hu hv
  | first _ ih => exact .first ih
  | second _ ih => exact .second ih
  | absent => exact .absent
  | present _ ih => exact .present ih
  | star hlength _ ih => exact .star (hlength.trans hmn) ih

theorem exists_bound_of_forall (h : ∀ u ∈ ws, ∃ n, x.MatchesUpTo n u) :
    ∃ n, ∀ u ∈ ws, x.MatchesUpTo n u := by
  induction ws with
  | nil => exact ⟨0, by simp⟩
  | cons u ws ih =>
    obtain ⟨⟨m, hm⟩, hrest⟩ := List.forall_mem_cons.mp h
    obtain ⟨k, hk⟩ := ih hrest
    refine ⟨max m k, List.forall_mem_cons.mpr ⟨hm.mono (Nat.le_max_left m k), fun v hv => ?_⟩⟩
    exact (hk v hv).mono (Nat.le_max_right m k)

/-- Every word of the language has a bound of its own. -/
theorem matches_iff_exists_upTo : t.Matches w ↔ ∃ n, t.MatchesUpTo n w := by
  constructor
  · intro h
    induction t generalizing w with
    | literal c =>
      rw [matches_literal_iff.mp h]
      exact ⟨0, .literal c⟩
    | sequence x y hx hy =>
      obtain ⟨u, v, rfl, hu, hv⟩ := matches_sequence_iff.mp h
      obtain ⟨m, hm⟩ := hx hu
      obtain ⟨k, hk⟩ := hy hv
      exact ⟨max m k, .sequence (hm.mono (Nat.le_max_left m k)) (hk.mono (Nat.le_max_right m k))⟩
    | alternative x y hx hy =>
      rcases matches_alternative_iff.mp h with h | h
      · exact (hx h).imp fun n hn => .first hn
      · exact (hy h).imp fun n hn => .second hn
    | star x hx =>
      obtain ⟨ws, rfl, hws⟩ := matches_star_iff.mp h
      obtain ⟨n, hn⟩ := exists_bound_of_forall fun u hu => hx (hws u hu)
      refine ⟨max ws.length n, .star (Nat.le_max_left _ n) fun u hu => ?_⟩
      exact (hn u hu).mono (Nat.le_max_right _ n)
    | optional x hx =>
      rcases matches_optional_iff.mp h with rfl | h
      · exact ⟨0, .absent⟩
      · exact (hx h).imp fun n hn => .present hn
  · rintro ⟨n, hn⟩
    exact hn.matches

end

/-! ## The words that can be drawn -/

/-- **The witnesses of a tree**: the draws of a node and of its parts are independent of each other,
so that every combination comes out. -/
theorem canGive_witness {t : Tree} {w : List Char} : t.witness.CanGive w ↔ t.MatchesUpTo 3 w := by
  induction t generalizing w with
  | literal c =>
    rw [witness, canGive_pure]
    constructor
    · rintro rfl
      exact .literal c
    · rintro ⟨⟩
      rfl
  | sequence x y hx hy =>
    simp only [witness, canGive_bind, canGive_pure, hx, hy]
    constructor
    · rintro ⟨u, hu, v, hv, rfl⟩
      exact .sequence hu hv
    · intro h
      cases h with
      | sequence hu hv => exact ⟨_, hu, _, hv, rfl⟩
  | alternative x y hx hy =>
    rw [witness, canGive_bind]
    constructor
    · rintro ⟨isFirst, -, h⟩
      cases isFirst with
      | true => exact .first (hx.mp h)
      | false => exact .second (hy.mp h)
    · intro h
      cases h with
      | first h => exact ⟨true, canGive_oneIn (by decide) true, hx.mpr h⟩
      | second h => exact ⟨false, canGive_oneIn (by decide) false, hy.mpr h⟩
  | star x hx =>
    simp only [witness, canGive_bind, canGive_inRange, canGive_times, canGive_pure, hx]
    constructor
    · rintro ⟨n, ⟨-, hn⟩, ws, ⟨rfl, hws⟩, rfl⟩
      exact .star (Nat.le_of_lt_succ hn) hws
    · intro h
      cases h with
      | star hlength hws =>
        exact ⟨_, ⟨Nat.zero_le _, Nat.lt_succ_of_le hlength⟩, _, ⟨rfl, hws⟩, rfl⟩
  | optional x hx =>
    rw [witness, canGive_bind]
    constructor
    · rintro ⟨present, -, h⟩
      cases present with
      | true => exact .present (hx.mp h)
      | false =>
        rw [canGive_pure.mp h]
        exact .absent
    · intro h
      cases h with
      | absent => exact ⟨false, canGive_oneIn (by decide) false, canGive_pure.mpr rfl⟩
      | present h => exact ⟨true, canGive_oneIn (by decide) true, hx.mpr h⟩

/-- **A witness is a member, and exactly the members within the bound are drawn.** Whatever the
answers, a word of the language comes out, which the matcher on the tree and both automata accept.
Each word with a derivation of at most three repetitions comes out for some answers and no other
word does; all words of the language have such derivations with some number for three. -/
theorem witness_exact (t : Tree) :
    (∀ vs r, t.witness.Outcome vs r → ∃ w, r = .ok w ∧ t.Matches w ∧ t.isMatch w = true ∧
      (Nfa.ofTree t).accepts w = true ∧ (Dfa.ofTree t).simulate w = .accepted) ∧
    (∀ (σ : Type) (source : Source σ) (s : σ),
      ∃ w, (source.run t.witness s).1 = .ok w ∧ t.MatchesUpTo 3 w) ∧
    (∀ w, (∃ vs, t.witness.Outcome vs (.ok w)) ↔ t.MatchesUpTo 3 w) ∧
    ∀ w, t.Matches w ↔ ∃ n, t.MatchesUpTo n w := by
  have hmember := always_iff.mp t.always_witness
  refine ⟨?_, ?_, fun w => canGive_witness, fun w => matches_iff_exists_upTo⟩
  · intro vs r hr
    obtain ⟨w, rfl, hw⟩ := hmember vs r hr
    exact ⟨w, rfl, hw, isMatch_iff.mpr hw, (Nfa.accepts_ofTree t w).mpr hw, Dfa.simulate_ofTree.mpr hw⟩
  · intro σ source s
    obtain ⟨vs, hvs⟩ := source.outcome_run t.witness s
    obtain ⟨w, hw, -⟩ := hmember vs _ hvs
    rw [hw] at hvs
    exact ⟨w, hw, canGive_witness.mp ⟨vs, hvs⟩⟩

/-- Of three repetitions the one in the middle is empty. -/
theorem witness_exact_nullable :
    (star (optional (literal 'a'))).witness.Outcome [3, 0, 1, 0] (.ok ['a', 'a']) ∧
    (Dfa.ofTree (star (optional (literal 'a')))).simulate ['a', 'a'] = .accepted := by
  have h : (star (optional (literal 'a'))).witness.Outcome [3, 0, 1, 0] (.ok ['a', 'a']) :=
    .ask (by decide) (by decide) (.ask (by decide) (by decide) (.ask (by decide) (by decide)
      (.ask (by decide) (by decide) (.done ['a', 'a']))))
  obtain ⟨w, hw, -, -, -, hsimulate⟩ := (witness_exact (star (optional (literal 'a')))).1 _ _ h
  cases hw
  exact ⟨h, hsimulate⟩

end PatternAutomata.Tree
