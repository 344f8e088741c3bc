import PatternAutomata.Pattern.Parser
/-!
# Reading a pattern character by character

The parser steps over tokens, and a juxtaposition is a token that no character stands for. Whether
it is there depends on the character before; a progress knows that character well enough, since it
has an operand exactly where the last token ends one. So the token of a juxtaposition and the one
after it make up one step, and the pattern is read character by character (`parse_eq`). What reading
a character can do is listed in `Reads`.
-/
namespace PatternAutomata

/-- Two computations in a row end well if both do. -/
theorem bind_eq_ok {ε α β : Type} {x : Except ε α} {f : α → Except ε β} {b : β} :
    (x >>= f) = .ok b ↔ ∃ a, x = .ok a ∧ f a = .ok b := by
  cases x with
  | error e =>
    constructor
    · intro h
      cases h
    · rintro ⟨a, ha, -⟩
      cases ha
  | ok a =>
    constructor
    · intro h
      exact ⟨a, rfl, h⟩
    · rintro ⟨_, ⟨⟩, h⟩
      exact h

namespace TokenKind

variable {c : Char} {k : TokenKind}

theorem ofChar_of_isLiteralChar (h : isLiteralChar c = true) : ofChar c = .literal c := by
  unfold ofChar
  split
  · cases h
  · cases h
  · cases h
  · cases h
  · cases h
  · exact if_pos h

theorem eq_sign_of_ofChar (h : ofChar c = k) : c = k.sign := by
  rw [← h, sign_ofChar]

theorem isLiteralChar_of_ofChar {d : Char} (h : ofChar c = .literal d) :
    isLiteralChar c = true := by
  unfold ofChar at h
  split at h
  · cases h
  · cases h
  · cases h
  · cases h
  · cases h
  · split at h
    · next hc => exact hc
    · cases h

end TokenKind

namespace Progress

variable {p p' q : Progress} {position : Nat} {c : Char} {s r : List Char}

/-- The operand `o` ends an item without being quantified any further. -/
def juxtapose (p : Progress) (o : Operand) : Progress :=
  { p with level := p.level.addItem o.tree, operand := none }

/-- One character, with the juxtaposition before it if there is one. -/
def read (p : Progress) (position : Nat) (c : Char) : Except ParseError Progress :=
  let t : Token := ⟨.ofChar c, position⟩
  match p.operand with
  | none => p.stepOperand t
  | some o => if t.kind.startsOperand then (p.juxtapose o).stepOperand t else p.stepOperator o t

/-- The characters `s`, the first of which stands at `position`. -/
def readFrom (p : Progress) (position : Nat) : List Char → Except ParseError Progress
  | [] => .ok p
  | c :: s => do
    let p' ← p.read position c
    p'.readFrom (position + 1) s

/-! ## Tokens and characters -/

/-- After a token there is an operand exactly if the token ends one. -/
theorem isSome_operand_of_step {t : Token} (h : p.step t = .ok p') :
    p'.operand.isSome = t.kind.endsOperand := by
  obtain ⟨k, position⟩ := t
  obtain ⟨gs, l, o⟩ := p
  cases o with
  | none => cases k <;> cases h <;> rfl
  | some o =>
    cases k with
    | star | question =>
      obtain ⟨t, quantifiable⟩ := o
      cases quantifiable with
      | true =>
        cases h
        rfl
      | false => cases h
    | groupClose =>
      cases gs with
      | nil => cases h
      | cons g gs =>
        cases h
        rfl
    | concat | bar =>
      cases h
      rfl
    | literal _ | groupOpen | other _ => cases h

theorem foldlM_token {k : TokenKind}
    (ih : ∀ p : Progress, (tokensFrom p.operand.isSome (position + 1) s).foldlM step p =
      p.readFrom (position + 1) s) :
    (⟨k, position⟩ :: tokensFrom k.endsOperand (position + 1) s).foldlM step p =
      (p.step ⟨k, position⟩ >>= fun p' => p'.readFrom (position + 1) s) := by
  rw [List.foldlM_cons]
  cases h : p.step ⟨k, position⟩ with
  | error e => rfl
  | ok p' =>
    have hends : k.endsOperand = p'.operand.isSome := (isSome_operand_of_step h).symm
    rw [hends]
    exact ih p'

/-- **Stepping over the tokens is reading the characters.** -/
theorem foldlM_tokensFrom (p : Progress) :
    (tokensFrom p.operand.isSome position s).foldlM step p = p.readFrom position s := by
  induction s generalizing p position with
  | nil => rfl
  | cons c s ih =>
    rw [tokensFrom, readFrom, read]
    cases ho : p.operand with
    | none =>
      have hstep : p.step ⟨.ofChar c, position⟩ = p.stepOperand ⟨.ofChar c, position⟩ := by
        rw [step, ho]
      rw [← hstep]
      exact foldlM_token ih
    | some o =>
      by_cases hstarts : (TokenKind.ofChar c).startsOperand = true
      · have hconcat : p.step ⟨.concat, position⟩ = .ok (p.juxtapose o) := by
          rw [step, ho]
          rfl
        simp only [Option.isSome_some, Bool.true_and, hstarts, if_true]
        rw [List.foldlM_cons, hconcat]
        exact foldlM_token ih
      · have hstep : p.step ⟨.ofChar c, position⟩ = p.stepOperator o ⟨.ofChar c, position⟩ := by
          rw [step, ho]
        simp only [Option.isSome_some, Bool.true_and, hstarts]
        rw [← hstep]
        exact foldlM_token ih

theorem parse_eq (s : List Char) :
    parse s = (start.readFrom 0 s >>= fun p => p.finish s.length) := by
  rw [← foldlM_tokensFrom]
  rfl

theorem parse_eq_ok {t : Tree} :
    parse s = .ok t ↔ ∃ p, start.readFrom 0 s = .ok p ∧ p.finish s.length = .ok t := by
  rw [parse_eq, bind_eq_ok]

/-! ## What a character does -/

/-- The character at `position` is read. -/
inductive Reads (position : Nat) : Progress → Char → Progress → Prop
  | literal {gs : List OpenGroup} {l : Level} {c : Char} :
      isLiteralChar c = true → Reads position ⟨gs, l, none⟩ c ⟨gs, l, some ⟨.literal c, true⟩⟩
  | opens {gs : List OpenGroup} {l : Level} :
      Reads position ⟨gs, l, none⟩ '(' ⟨⟨position, l⟩ :: gs, .empty, none⟩
  | juxtaposed {gs : List OpenGroup} {l : Level} {o : Operand} {c : Char} {p' : Progress} :
      Reads position ⟨gs, l.addItem o.tree, none⟩ c p' → Reads position ⟨gs, l, some o⟩ c p'
  | star {gs : List OpenGroup} {l : Level} {t : Tree} :
      Reads position ⟨gs, l, some ⟨t, true⟩⟩ '*' ⟨gs, l, some ⟨.star t, false⟩⟩
  | question {gs : List OpenGroup} {l : Level} {t : Tree} :
      Reads position ⟨gs, l, some ⟨t, true⟩⟩ '?' ⟨gs, l, some ⟨.optional t, false⟩⟩
  | bar {gs : List OpenGroup} {l : Level} {o : Operand} :
      Reads position ⟨gs, l, some o⟩ '|' ⟨gs, l.addBranch o.tree, none⟩
  | closes {g : OpenGroup} {gs : List OpenGroup} {l : Level} {o : Operand} :
      Reads position ⟨g :: gs, l, some o⟩ ')' ⟨gs, g.outside, some ⟨l.close o.tree, true⟩⟩

theorem reads_of_stepOperand {gs : List OpenGroup} {l : Level}
    (h : stepOperand ⟨gs, l, none⟩ ⟨.ofChar c, position⟩ = .ok p') :
    Reads position ⟨gs, l, none⟩ c p' := by
  unfold stepOperand at h
  cases hk : TokenKind.ofChar c with
  | literal d =>
    rw [hk] at h
    obtain rfl : c = d := TokenKind.eq_sign_of_ofChar hk
    cases h
    exact .literal (TokenKind.isLiteralChar_of_ofChar hk)
  | groupOpen =>
    rw [hk] at h
    obtain rfl : c = '(' := TokenKind.eq_sign_of_ofChar hk
    cases h
    exact .opens
  | _ =>
    rw [hk] at h
    cases h

theorem reads_of_stepOperator {gs : List OpenGroup} {l : Level} {o : Operand}
    (hstarts : ¬ (TokenKind.ofChar c).startsOperand = true)
    (h : stepOperator ⟨gs, l, some o⟩ o ⟨.ofChar c, position⟩ = .ok p') :
    Reads position ⟨gs, l, some o⟩ c p' := by
  obtain ⟨t, q⟩ := o
  unfold stepOperator at h
  cases hk : TokenKind.ofChar c with
  | star =>
    obtain rfl : c = '*' := TokenKind.eq_sign_of_ofChar hk
    cases q <;> cases h
    exact .star
  | question =>
    obtain rfl : c = '?' := TokenKind.eq_sign_of_ofChar hk
    cases q <;> cases h
    exact .question
  | bar =>
    obtain rfl : c = '|' := TokenKind.eq_sign_of_ofChar hk
    cases h
    exact .bar
  | groupClose =>
    obtain rfl : c = ')' := TokenKind.eq_sign_of_ofChar hk
    cases gs <;> cases h
    exact .closes
  | _ => exact absurd rfl (hk ▸ hstarts)

/-- **Every way in which a character is read.** -/
theorem read_eq_ok : p.read position c = .ok p' ↔ Reads position p c p' := by
  constructor
  · intro h
    obtain ⟨gs, l, o⟩ := p
    cases o with
    | none => exact reads_of_stepOperand h
    | some o =>
      by_cases hstarts : (TokenKind.ofChar c).startsOperand = true
      · simp only [read, hstarts, if_true] at h
        exact .juxtaposed (reads_of_stepOperand h)
      · simp only [read, hstarts] at h
        exact reads_of_stepOperator hstarts h
  · intro h
    induction h with
    | literal hc => simp [read, stepOperand, TokenKind.ofChar_of_isLiteralChar hc]
    | opens => rfl
    | @juxtaposed gs l o c p' h ih =>
      have hstarts : (TokenKind.ofChar c).startsOperand = true := by
        cases h with
        | literal hc => rw [TokenKind.ofChar_of_isLiteralChar hc]; rfl
        | opens => rfl
      simp only [read, hstarts, if_true]
      exact ih
    | star => rfl
    | question => rfl
    | bar => rfl
    | closes => rfl

theorem readFrom_cons (h : Reads position p c p') :
    p.readFrom position (c :: s) = p'.readFrom (position + 1) s := by
  rw [readFrom, read_eq_ok.mpr h]
  rfl

theorem readFrom_append :
    p.readFrom position (s ++ r) =
      (p.readFrom position s >>= fun p' => p'.readFrom (position + s.length) r) := by
  induction s generalizing p position with
  | nil => rfl
  | cons c s ih =>
    rw [List.cons_append, readFrom, readFrom]
    cases p.read position c with
    | error e => rfl
    | ok p₁ =>
      have hlength : position + (c :: s).length = position + 1 + s.length := by
        rw [List.length_cons]
        omega
      rw [hlength]
      exact ih

theorem readFrom_cons_eq_ok :
    p.readFrom position (c :: s) = .ok p' ↔
      ∃ p₁, Reads position p c p₁ ∧ p₁.readFrom (position + 1) s = .ok p' := by
  constructor
  · intro h
    rw [readFrom] at h
    cases hc : p.read position c with
    | error e =>
      rw [hc] at h
      cases h
    | ok p₁ =>
      rw [hc] at h
      exact ⟨p₁, read_eq_ok.mp hc, h⟩
  · rintro ⟨p₁, hc, h⟩
    rw [readFrom_cons hc, h]

theorem readFrom_append_eq_ok :
    p.readFrom position (s ++ r) = .ok p' ↔
      ∃ q, p.readFrom position s = .ok q ∧ q.readFrom (position + s.length) r = .ok p' := by
  rw [readFrom_append, bind_eq_ok]

/-- One more character is read after those that were. -/
theorem readFrom_snoc (h : p.readFrom position s = .ok q)
    (hc : Reads (position + s.length) q c p') : p.readFrom position (s ++ [c]) = .ok p' :=
  readFrom_append_eq_ok.mpr ⟨q, h, readFrom_cons hc⟩

end Progress
end PatternAutomata
