import PatternAutomata.Proofs.ErrorKinds
/-!
# Tokens tell the source

Besides its juxtapositions, the token stream of a pattern has one token for each character, in order
and at the character's place (`charTokens_tokenize`). A juxtaposition stands exactly between two
characters of which the first ends an operand and the second leaves it complete
(`tokenize_eq_append_concat_iff`). So the tokens tell the source (`tokenize_lossless`).

A scanner that looks at one character at a time knows whether a juxtaposition follows a token only
when it sees the next character. It holds each token back until then, and its tokens are the same
(`scan_eq_tokenize`).
-/
namespace PatternAutomata

variable {s r : List Char} {c d : Char} {position : Nat} {afterOperand : Bool} {t : Token}
  {before after : List Token}

/-! ## Juxtaposed characters -/

/-- An operand ends with `c`, and `d` is neither an operator nor closes a group. -/
def Juxtaposed (c d : Char) : Prop :=
  (isLiteralChar c = true ∨ c = ')' ∨ c = '*' ∨ c = '?') ∧ d ≠ ')' ∧ d ≠ '|' ∧ d ≠ '*' ∧ d ≠ '?'
deriving Decidable

namespace TokenKind

theorem endsOperand_ofChar :
    (ofChar c).endsOperand = true ↔ isLiteralChar c = true ∨ c = ')' ∨ c = '*' ∨ c = '?' := by
  unfold ofChar
  split
  case h_6 _ hclose _ hstar hquestion =>
    split
    next hliteral => exact iff_of_true rfl (.inl hliteral)
    next hliteral =>
      refine iff_of_false Bool.false_ne_true ?_
      rintro (h | h | h | h)
      · exact hliteral h
      · exact hclose h
      · exact hstar h
      · exact hquestion h
  all_goals decide

theorem startsOperand_ofChar :
    (ofChar c).startsOperand = true ↔ c ≠ ')' ∧ c ≠ '|' ∧ c ≠ '*' ∧ c ≠ '?' := by
  unfold ofChar
  split
  case h_6 _ hclose hbar hstar hquestion =>
    refine iff_of_true ?_ ⟨hclose, hbar, hstar, hquestion⟩
    split
    · rfl
    · rfl
  all_goals decide

end TokenKind

theorem juxtaposed_iff : Juxtaposed c d ↔
    (TokenKind.ofChar c).endsOperand = true ∧ (TokenKind.ofChar d).startsOperand = true := by
  rw [TokenKind.endsOperand_ofChar, TokenKind.startsOperand_ofChar]
  rfl

/-! ## The tokens of characters -/

/-- The tokens without the juxtapositions. -/
def charTokens (ts : List Token) : List Token := ts.filter fun t => t.kind ≠ .concat

theorem charTokens_tokensFrom : charTokens (tokensFrom afterOperand position s) =
    (s.zipIdx position).map fun e => ⟨.ofChar e.1, e.2⟩ := by
  induction s generalizing afterOperand position with
  | nil => rfl
  | cons c s ih =>
    have hc : TokenKind.ofChar c ≠ .concat := Progress.ofChar_ne_concat c
    rw [tokensFrom, List.zipIdx_cons, List.map_cons,
      ← @ih (position + 1) (TokenKind.ofChar c).endsOperand]
    split <;> simp [charTokens, hc]

/-- **The others are the characters**, in order and each at its place. -/
theorem charTokens_tokenize (s : List Char) :
    charTokens (tokenize s) = s.zipIdx.map fun e => ⟨.ofChar e.1, e.2⟩ :=
  charTokens_tokensFrom

theorem map_sign_charTokens (s : List Char) :
    (charTokens (tokenize s)).map (fun t => (t.kind.sign, t.position)) = s.zipIdx := by
  rw [charTokens_tokenize, List.map_map]
  simp [Function.comp_def]

/-! ## The places of the juxtapositions -/

/-- Whether the characters `s` end an operand; `afterOperand` says whether those before them do. -/
def endsAfter (afterOperand : Bool) (s : List Char) : Bool :=
  (s.getLast?.map fun c => (TokenKind.ofChar c).endsOperand).getD afterOperand

theorem endsAfter_cons :
    endsAfter afterOperand (c :: s) = endsAfter (TokenKind.ofChar c).endsOperand s := by
  rw [endsAfter, endsAfter, List.getLast?_cons]
  cases s.getLast? <;> rfl

theorem tokensFrom_append : tokensFrom afterOperand position (s ++ r) =
    tokensFrom afterOperand position s ++
      tokensFrom (endsAfter afterOperand s) (position + s.length) r := by
  induction s generalizing afterOperand position with
  | nil => rfl
  | cons c s ih =>
    have hlength : position + 1 + s.length = position + (c :: s).length := by
      rw [List.length_cons]
      omega
    rw [List.cons_append, tokensFrom, ih, tokensFrom, endsAfter_cons, hlength]
    split <;> rfl

theorem tokensFrom_cons : tokensFrom afterOperand position (c :: s) =
    tokensFrom afterOperand position [c] ++
      tokensFrom (TokenKind.ofChar c).endsOperand (position + 1) s :=
  tokensFrom_append (s := [c])

theorem tokensFrom_singleton : tokensFrom afterOperand position [c] =
    if (afterOperand && (TokenKind.ofChar c).startsOperand) = true then
      [⟨.concat, position⟩, ⟨.ofChar c, position⟩]
    else [⟨.ofChar c, position⟩] := rfl

/-- The last token is the last character's. -/
theorem exists_tokenize_concat (s : List Char) (c : Char) :
    ∃ ts, tokenize (s ++ [c]) = ts ++ [⟨.ofChar c, s.length⟩] := by
  rw [tokenize, tokensFrom_append, Nat.zero_add, tokensFrom_singleton]
  split
  · exact ⟨tokensFrom false 0 s ++ [⟨.concat, s.length⟩], by simp⟩
  · exact ⟨_, rfl⟩

/-- The tokens of `s₁ ++ d :: s₂` part at the juxtaposition `t` before the token of `d`. -/
structure PartsAt (afterOperand : Bool) (position : Nat) (s₁ : List Char) (d : Char)
    (s₂ : List Char) (before : List Token) (t : Token) (after : List Token) : Prop where
  ends : endsAfter afterOperand s₁ = true
  starts : (TokenKind.ofChar d).startsOperand = true
  token_eq : t = ⟨.concat, position + s₁.length⟩
  before_eq : before = tokensFrom afterOperand position s₁
  after_eq : after = ⟨.ofChar d, position + s₁.length⟩ ::
    tokensFrom (TokenKind.ofChar d).endsOperand (position + s₁.length + 1) s₂

theorem PartsAt.cons {s₁ s₂ : List Char}
    (h : PartsAt (TokenKind.ofChar c).endsOperand (position + 1) s₁ d s₂ before t after) :
    PartsAt afterOperand position (c :: s₁) d s₂ (tokensFrom afterOperand position [c] ++ before) t
      after := by
  have hlength : position + 1 + s₁.length = position + (c :: s₁).length := by
    rw [List.length_cons]
    omega
  obtain ⟨hends, hstarts, htoken, hbefore, hafter⟩ := h
  rw [hlength] at htoken hafter
  refine ⟨by rwa [endsAfter_cons], hstarts, htoken, ?_, hafter⟩
  rw [tokensFrom_cons (s := s₁), hbefore]

/-- Every juxtaposition comes before the token of some character. The induction is on the
characters; the tokens of the first one end with its own, which is no juxtaposition. -/
theorem exists_partsAt (hk : t.kind = .concat)
    (h : tokensFrom afterOperand position s = before ++ t :: after) :
    ∃ s₁ d s₂, s = s₁ ++ d :: s₂ ∧ PartsAt afterOperand position s₁ d s₂ before t after := by
  induction s generalizing afterOperand position before with
  | nil => simp [tokensFrom] at h
  | cons c s ih =>
    have hlater : ∀ {before : List Token},
        ⟨.ofChar c, position⟩ :: tokensFrom (TokenKind.ofChar c).endsOperand (position + 1) s =
          before ++ t :: after →
        ∃ before' s₁ d s₂, before = ⟨.ofChar c, position⟩ :: before' ∧ s = s₁ ++ d :: s₂ ∧
          PartsAt (TokenKind.ofChar c).endsOperand (position + 1) s₁ d s₂ before' t after := by
      intro before h
      rcases List.cons_eq_append_iff.mp h with ⟨-, ht⟩ | ⟨before', hbefore, hrest⟩
      · obtain ⟨rfl, -⟩ := List.cons.inj ht
        exact absurd hk (Progress.ofChar_ne_concat c)
      · obtain ⟨s₁, d, s₂, hs, hparts⟩ := ih hrest
        exact ⟨before', s₁, d, s₂, hbefore, hs, hparts⟩
    have hfirst : tokensFrom afterOperand position [c] = _ := tokensFrom_singleton
    rw [tokensFrom_cons, hfirst] at h
    split at h
    · next hconcat =>
      rw [if_pos hconcat] at hfirst
      rcases List.cons_eq_append_iff.mp h with ⟨rfl, ht⟩ | ⟨u, rfl, hu⟩
      · obtain ⟨hafter, hstarts⟩ := Bool.and_eq_true_iff.mp hconcat
        obtain ⟨rfl, rfl⟩ := List.cons.inj ht
        exact ⟨[], c, s, rfl, hafter, hstarts, rfl, rfl, rfl⟩
      · obtain ⟨before', s₁, d, s₂, rfl, rfl, hparts⟩ := hlater hu
        have hall : PartsAt afterOperand position (c :: s₁) d s₂ _ t after := hparts.cons
        rw [hfirst] at hall
        exact ⟨c :: s₁, d, s₂, rfl, hall⟩
    · next hconcat =>
      rw [if_neg hconcat] at hfirst
      obtain ⟨before', s₁, d, s₂, rfl, rfl, hparts⟩ := hlater h
      have hall : PartsAt afterOperand position (c :: s₁) d s₂ _ t after := hparts.cons
      rw [hfirst] at hall
      exact ⟨c :: s₁, d, s₂, rfl, hall⟩

/-- **A juxtaposition stands for two characters that are juxtaposed**: before it are the tokens of
the first one and of all characters before that, and the token of the second one follows. -/
theorem tokenize_eq_append_concat_iff :
    tokenize s = before ++ t :: after ∧ t.kind = .concat ↔
      ∃ s₁ c d s₂, s = s₁ ++ c :: d :: s₂ ∧ Juxtaposed c d ∧ t = ⟨.concat, s₁.length + 1⟩ ∧
        before = tokenize (s₁ ++ [c]) ∧
        after = ⟨.ofChar d, s₁.length + 1⟩ ::
          tokensFrom (TokenKind.ofChar d).endsOperand (s₁.length + 2) s₂ := by
  constructor
  · rintro ⟨h, hk⟩
    obtain ⟨u, d, s₂, rfl, hends, hstarts, rfl, rfl, rfl⟩ := exists_partsAt hk h
    rcases List.eq_nil_or_concat u with rfl | ⟨s₁, c, rfl⟩
    · cases hends
    · rw [List.concat_eq_append] at hends ⊢
      have hjuxtaposed : Juxtaposed c d := by
        refine juxtaposed_iff.mpr ⟨?_, hstarts⟩
        simpa [endsAfter] using hends
      exact ⟨s₁, c, d, s₂, by simp, hjuxtaposed, by simp, rfl, by simp⟩
  · rintro ⟨s₁, c, d, s₂, rfl, hjuxtaposed, rfl, rfl, rfl⟩
    obtain ⟨hends, hstarts⟩ := juxtaposed_iff.mp hjuxtaposed
    have hsplit : s₁ ++ c :: d :: s₂ = (s₁ ++ [c]) ++ d :: s₂ := by simp
    have hafter : (endsAfter false (s₁ ++ [c]) && (TokenKind.ofChar d).startsOperand) = true := by
      simp [endsAfter, hends, hstarts]
    refine ⟨?_, rfl⟩
    rw [hsplit, tokenize, tokensFrom_append, tokensFrom_cons, tokensFrom_singleton, if_pos hafter]
    simp [tokenize]

/-! ## Positions -/

theorem position_of_mem_singleton (h : t ∈ tokensFrom afterOperand position [c]) :
    t.position = position := by
  rw [tokensFrom_singleton] at h
  split at h
  · simp only [List.mem_cons, List.not_mem_nil, or_false] at h
    rcases h with rfl | rfl <;> rfl
  · rw [List.mem_singleton.mp h]

theorem le_position_of_mem_tokensFrom (h : t ∈ tokensFrom afterOperand position s) :
    position ≤ t.position := by
  induction s generalizing afterOperand position with
  | nil => cases h
  | cons c s ih =>
    rw [tokensFrom_cons] at h
    rcases List.mem_append.mp h with hfirst | hrest
    · exact Nat.le_of_eq (position_of_mem_singleton hfirst).symm
    · exact Nat.le_of_succ_le (ih hrest)

theorem pairwise_position_tokensFrom :
    (tokensFrom afterOperand position s).Pairwise fun t u => t.position ≤ u.position := by
  induction s generalizing afterOperand position with
  | nil => exact .nil
  | cons c s ih =>
    rw [tokensFrom_cons, List.pairwise_append]
    refine ⟨?_, ih, fun t ht u hu => ?_⟩
    · rw [tokensFrom_singleton]
      split <;> simp
    · rw [position_of_mem_singleton ht]
      exact Nat.le_of_succ_le (le_position_of_mem_tokensFrom hu)

/-! ## One token held back -/

/-- What a scanner has that reads characters one by one. -/
structure Scanner where
  emitted : List Token
  /-- The token of the last character, which waits for the next one. -/
  held : Option Token

namespace Scanner

/-- The next character `c`, at `position`: the token held is emitted, with a juxtaposition after it
where one belongs, and the token of `c` is held instead. -/
def read (sc : Scanner) (c : Char) (position : Nat) : Scanner :=
  let next : Token := ⟨.ofChar c, position⟩
  match sc.held with
  | none => ⟨sc.emitted, some next⟩
  | some t =>
    if t.kind.endsOperand && next.kind.startsOperand then
      ⟨sc.emitted ++ [t, ⟨.concat, position⟩], some next⟩
    else ⟨sc.emitted ++ [t], some next⟩

/-- All tokens, when no more characters come. -/
def finish (sc : Scanner) : List Token := sc.emitted ++ sc.held.toList

/-- Whether the last character ends an operand. -/
def endsOperand (sc : Scanner) : Bool := sc.held.any fun t => t.kind.endsOperand

end Scanner

/-- The tokens that the scanner finds. -/
def scan (s : List Char) : List Token :=
  (s.zipIdx.foldl (fun (sc : Scanner) e => sc.read e.1 e.2) ⟨[], none⟩).finish

/-- One character adds its own tokens to those that are emitted or held. -/
theorem Scanner.finish_read (sc : Scanner) (c : Char) (position : Nat) :
    (sc.read c position).finish = sc.finish ++ tokensFrom sc.endsOperand position [c] := by
  obtain ⟨emitted, held⟩ := sc
  cases held with
  | none => simp [read, finish, endsOperand, tokensFrom_singleton]
  | some t =>
    rw [tokensFrom_singleton, read, endsOperand, Option.any_some]
    dsimp only
    split <;> simp [finish]

theorem Scanner.endsOperand_read (sc : Scanner) (c : Char) (position : Nat) :
    (sc.read c position).endsOperand = (TokenKind.ofChar c).endsOperand := by
  obtain ⟨emitted, held⟩ := sc
  cases held with
  | none => rfl
  | some t =>
    unfold read
    dsimp only
    split <;> rfl

theorem Scanner.finish_foldl (sc : Scanner) (s : List Char) (position : Nat) :
    ((s.zipIdx position).foldl (fun sc e => sc.read e.1 e.2) sc).finish =
      sc.finish ++ tokensFrom sc.endsOperand position s := by
  induction s generalizing sc position with
  | nil => simp [tokensFrom]
  | cons c s ih =>
    rw [List.zipIdx_cons, List.foldl_cons, ih, finish_read, endsOperand_read, List.append_assoc,
      ← tokensFrom_cons]

theorem scan_eq_tokenize (s : List Char) : scan s = tokenize s :=
  Scanner.finish_foldl ⟨[], none⟩ s 0

/-! ## The token stream as a whole -/

/-- The place of a character is the place of its token among those of characters. -/
theorem getElem?_charTokens {i : Nat} :
    (charTokens (tokenize s))[i]? = s[i]?.map fun c => ⟨.ofChar c, i⟩ := by
  rw [charTokens_tokenize, List.getElem?_map, List.getElem?_zipIdx, Option.map_map]
  simp [Function.comp_def]

/-- A juxtaposition right before a character's token. -/
theorem concat_infix_iff {i k : Nat} (h : (charTokens (tokenize s))[i]? = some t) :
    [⟨.concat, k⟩, t] <:+: tokenize s ↔
      k = i ∧ ∃ j c d, i = j + 1 ∧ s[j]? = some c ∧ s[j + 1]? = some d ∧ Juxtaposed c d := by
  rw [getElem?_charTokens] at h
  obtain ⟨d, hd, rfl⟩ := Option.map_eq_some_iff.mp h
  constructor
  · rintro ⟨before, after, htokens⟩
    have hsplit : tokenize s = before ++ ⟨.concat, k⟩ :: (⟨.ofChar d, i⟩ :: after) := by
      simpa using htokens.symm
    obtain ⟨s₁, c, d', s₂, rfl, hjuxtaposed, hk, -, hnext⟩ :=
      tokenize_eq_append_concat_iff.mp ⟨hsplit, rfl⟩
    obtain rfl : k = s₁.length + 1 := congrArg Token.position hk
    obtain rfl : i = s₁.length + 1 := congrArg Token.position (List.cons.inj hnext).1
    exact ⟨rfl, s₁.length, c, d', rfl, by simp, by simp, hjuxtaposed⟩
  · rintro ⟨rfl, j, c, d', rfl, hc, hd', hjuxtaposed⟩
    obtain rfl : d = d' := Option.some.inj (hd.symm.trans hd')
    obtain ⟨hj, rfl⟩ := List.getElem?_eq_some_iff.mp hc
    obtain ⟨hj', rfl⟩ := List.getElem?_eq_some_iff.mp hd
    have hs : s = s.take j ++ s[j] :: s[j + 1] :: s.drop (j + 2) := by
      rw [List.getElem_cons_drop, List.getElem_cons_drop, List.take_append_drop]
    have hlength : (s.take j).length = j := by
      rw [List.length_take]
      omega
    obtain ⟨htokens, -⟩ := tokenize_eq_append_concat_iff.mpr
      ⟨s.take j, s[j], s[j + 1], s.drop (j + 2), hs, hjuxtaposed, rfl, rfl, rfl⟩
    rw [hlength] at htokens
    refine ⟨tokenize (s.take j ++ [s[j]]),
      tokensFrom (TokenKind.ofChar s[j + 1]).endsOperand (j + 2) (s.drop (j + 2)), ?_⟩
    rw [htokens, List.append_assoc]
    rfl

/-- **The token stream is the source with its juxtapositions made explicit.** Of the `n` characters
each has its token, in order and with its position and sign. Right before the token of a character
stands a juxtaposition, with the same position, exactly if the character and the one before it are
juxtaposed; so no juxtaposition is the first token, the last one or next to another. Positions never
decrease, and the signs of the other tokens spell the source, which no other source has. The scanner
that holds one token back finds the same tokens. -/
theorem tokenize_lossless (s : List Char) :
    scan s = tokenize s ∧
    (charTokens (tokenize s)).length = s.length ∧
    (charTokens (tokenize s)).map (fun t => (t.kind.sign, t.position)) = s.zipIdx ∧
    (∀ i t, (charTokens (tokenize s))[i]? = some t → ∀ k,
      [⟨.concat, k⟩, t] <:+: tokenize s ↔
        k = i ∧ ∃ j c d, i = j + 1 ∧ s[j]? = some c ∧ s[j + 1]? = some d ∧ Juxtaposed c d) ∧
    (∀ before t after, tokenize s = before ++ t :: after → t.kind = .concat →
      ∃ before' t₀ t₁ after', before = before' ++ [t₀] ∧ after = t₁ :: after' ∧
        t₀.kind ≠ .concat ∧ t₁.kind ≠ .concat ∧ t₁.position = t.position) ∧
    (tokenize s).Pairwise (fun t u => t.position ≤ u.position) ∧
    (charTokens (tokenize s)).map (fun t => t.kind.sign) = s ∧
    ∀ s', tokenize s' = tokenize s → s' = s := by
  have hsigns : ∀ s, (charTokens (tokenize s)).map (fun t => t.kind.sign) = s := by
    intro s
    rw [charTokens_tokenize, List.map_map]
    simp [Function.comp_def]
  refine ⟨scan_eq_tokenize s, ?_, map_sign_charTokens s, fun i t ht k => concat_infix_iff ht, ?_,
    pairwise_position_tokensFrom, hsigns s, ?_⟩
  · rw [charTokens_tokenize, List.length_map, List.length_zipIdx]
  · intro before t after htokens hk
    obtain ⟨s₁, c, d, s₂, -, -, rfl, rfl, rfl⟩ := tokenize_eq_append_concat_iff.mp ⟨htokens, hk⟩
    obtain ⟨ts, hts⟩ := exists_tokenize_concat s₁ c
    exact ⟨ts, _, _, _, hts, rfl, Progress.ofChar_ne_concat c, Progress.ofChar_ne_concat d, rfl⟩
  · intro s' h
    rw [← hsigns s', h, hsigns s]

/-- A dot in the source is a character without a place in a pattern, and the juxtaposition before it
is shown as a dot. -/
theorem tokenize_lossless_dot :
    (charTokens (tokenize ['a', '.', 'b']))[1]? = some ⟨.other '.', 1⟩ ∧
    [⟨.concat, 1⟩, ⟨.other '.', 1⟩] <:+: tokenize ['a', '.', 'b'] ∧
    ¬ [⟨.concat, 2⟩, ⟨.literal 'b', 2⟩] <:+: tokenize ['a', '.', 'b'] := by
  have hdot : (charTokens (tokenize ['a', '.', 'b']))[1]? = some ⟨.other '.', 1⟩ := by decide
  have hb : (charTokens (tokenize ['a', '.', 'b']))[2]? = some ⟨.literal 'b', 2⟩ := by decide
  obtain ⟨-, -, -, hplaces, -⟩ := tokenize_lossless ['a', '.', 'b']
  refine ⟨hdot, ?_, ?_⟩
  · exact (hplaces 1 _ hdot 1).mpr ⟨rfl, 0, 'a', '.', rfl, rfl, rfl, by decide⟩
  · intro h
    obtain ⟨-, j, c, d, hj, hc, -, hjuxtaposed⟩ := (hplaces 2 _ hb 2).mp h
    obtain rfl : j = 1 := Nat.succ.inj hj.symm
    obtain rfl : '.' = c := Option.some.inj hc
    exact absurd hjuxtaposed.1 (by decide)

end PatternAutomata
