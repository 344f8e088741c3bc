import PatternAutomata.Proofs.Reading
/-!
# Errors stand at the earliest place

A string is viable if some continuation of it parses. The viable strings are exactly those that are
read to their end (`viable_iff`): what a progress lacks can always be supplied (`completion`), and a
character that is refused (`read_eq_error`) is refused whatever follows it. So an error stands where
the longest viable beginning of the pattern ends (`error_position_earliest`).
-/
namespace PatternAutomata

/-- Some continuation of `s`, possibly an empty one, parses. -/
def Viable (s : List Char) : Prop := ∃ rest t, parse (s ++ rest) = .ok t

namespace Progress

variable {p p' : Progress} {position : Nat} {c : Char} {s r : List Char} {o : Operand} {t : Token}
  {e : ParseError}

/-! ## Completions -/

/-- Characters that make a whole pattern of what was read: an operand if one has to begin, and a
parenthesis for each open group. -/
def completion (p : Progress) : List Char :=
  match p.operand with
  | none => 'a' :: List.replicate p.groups.length ')'
  | some _ => List.replicate p.groups.length ')'

theorem readFrom_closers (gs : List OpenGroup) (l : Level) (o : Operand) (position : Nat) :
    ∃ l' o', readFrom ⟨gs, l, some o⟩ position (List.replicate gs.length ')') =
      .ok ⟨[], l', some o'⟩ := by
  induction gs generalizing l o position with
  | nil => exact ⟨l, o, rfl⟩
  | cons g gs ih =>
    obtain ⟨l', o', h⟩ := ih g.outside ⟨l.close o.tree, true⟩ (position + 1)
    refine ⟨l', o', ?_⟩
    rw [List.length_cons, List.replicate_succ, readFrom_cons .closes, h]

/-- After its completion no group is open and an operand is complete. -/
theorem readFrom_completion (p : Progress) (position : Nat) :
    ∃ l o, p.readFrom position p.completion = .ok ⟨[], l, some o⟩ := by
  obtain ⟨gs, l, o⟩ := p
  cases o with
  | some o => exact readFrom_closers gs l o position
  | none =>
    obtain ⟨l', o', h⟩ := readFrom_closers gs l ⟨.literal 'a', true⟩ (position + 1)
    refine ⟨l', o', ?_⟩
    simp only [completion]
    rw [readFrom_cons (.literal (by decide)), h]

/-- What was read up to here can be continued, whatever it was. -/
theorem viable_of_readFrom (h : start.readFrom 0 s = .ok p) : Viable s := by
  obtain ⟨l, o, hrest⟩ := p.readFrom_completion (0 + s.length)
  have hwhole := readFrom_append_eq_ok.mpr ⟨p, h, hrest⟩
  exact ⟨p.completion, l.close o.tree, parse_eq_ok.mpr ⟨_, hwhole, rfl⟩⟩

/-! ## Errors -/

@[simp] theorem position_stuck : (p.stuck c position).position = position := by
  unfold stuck
  split <;> rfl

/-- Where an operand has to begin, all but literals and opening parentheses are refused. -/
theorem stepOperand_eq_error (h : p.stepOperand t = .error e) :
    e = .unexpectedChar t.kind.sign t.position ∧ (∀ c, t.kind ≠ .literal c) ∧
      t.kind ≠ .groupOpen := by
  unfold stepOperand at h
  cases hk : t.kind with
  | literal d =>
    rw [hk] at h
    cases h
  | groupOpen =>
    rw [hk] at h
    cases h
  | _ =>
    rw [hk] at h
    cases h
    exact ⟨rfl, by simp, by simp⟩

/-- After an operand, a second quantifier, a parenthesis that closes nothing and what begins another
operand are refused. -/
theorem stepOperator_eq_error (h : p.stepOperator o t = .error e) :
    e = p.stuck t.kind.sign t.position ∧
      (t.kind.startsOperand = true ∨ t.kind = .star ∨ t.kind = .question ∨
        t.kind = .groupClose ∧ p.groups = []) := by
  unfold stepOperator at h
  cases hk : t.kind with
  | star =>
    rw [hk] at h
    dsimp only at h
    split at h
    · cases h
    · cases h
      exact ⟨rfl, .inr (.inl rfl)⟩
  | question =>
    rw [hk] at h
    dsimp only at h
    split at h
    · cases h
    · cases h
      exact ⟨rfl, .inr (.inr (.inl rfl))⟩
  | bar | concat =>
    rw [hk] at h
    cases h
  | groupClose =>
    cases hgs : p.groups with
    | nil =>
      rw [hk, hgs] at h
      cases h
      exact ⟨rfl, .inr (.inr (.inr ⟨rfl, rfl⟩))⟩
    | cons g gs =>
      rw [hk, hgs] at h
      cases h
  | _ =>
    rw [hk] at h
    cases h
    exact ⟨rfl, .inl rfl⟩

/-- **Why a character is refused.** -/
theorem read_eq_error (h : p.read position c = .error e) :
    (e = .unexpectedChar c position ∧ isLiteralChar c = false ∧ c ≠ '(') ∨
    ∃ o, p.operand = some o ∧ e = p.stuck c position ∧
      (c = '*' ∨ c = '?' ∨ c = ')' ∧ p.groups = []) := by
  have hoperand : ∀ p : Progress, p.stepOperand ⟨.ofChar c, position⟩ = .error e →
      e = .unexpectedChar c position ∧ isLiteralChar c = false ∧ c ≠ '(' := by
    intro p hp
    obtain ⟨he, hliteral, hopen⟩ := stepOperand_eq_error hp
    rw [TokenKind.sign_ofChar] at he
    refine ⟨he, Bool.eq_false_iff.mpr fun hc => ?_, ?_⟩
    · exact hliteral c (TokenKind.ofChar_of_isLiteralChar hc)
    · rintro rfl
      exact hopen rfl
  unfold read at h
  split at h
  · exact .inl (hoperand p h)
  · next o ho =>
    dsimp only at h
    split at h
    · exact .inl (hoperand _ h)
    · next hstarts =>
      obtain ⟨he, hkind⟩ := stepOperator_eq_error h
      rw [TokenKind.sign_ofChar] at he
      refine .inr ⟨o, ho, he, ?_⟩
      rcases hkind with hk | hk | hk | ⟨hk, hgs⟩
      · exact absurd hk hstarts
      · exact .inl (TokenKind.eq_sign_of_ofChar hk)
      · exact .inr (.inl (TokenKind.eq_sign_of_ofChar hk))
      · exact .inr (.inr ⟨TokenKind.eq_sign_of_ofChar hk, hgs⟩)

/-- A token is refused where it stands. -/
theorem position_of_step (h : p.step t = .error e) : e.position = t.position := by
  unfold step at h
  split at h
  · obtain ⟨rfl, -⟩ := stepOperand_eq_error h
    rfl
  · obtain ⟨rfl, -⟩ := stepOperator_eq_error h
    exact position_stuck

/-- A character is refused where it stands. -/
theorem position_of_read (h : p.read position c = .error e) : e.position = position := by
  rcases read_eq_error h with ⟨rfl, -⟩ | ⟨o, -, rfl, -⟩
  · rfl
  · exact position_stuck

/-- A pattern that must not end here is refused at its end. -/
theorem position_of_finish {length : Nat} (h : p.finish length = .error e) :
    e.position = length := by
  unfold finish at h
  split at h
  · cases h
    rfl
  · cases h
    rfl
  · cases h

/-- Reading fails at a character, after all characters before it were read. -/
theorem exists_of_readFrom_eq_error (h : p.readFrom position s = .error e) :
    ∃ u c v q, s = u ++ c :: v ∧ p.readFrom position u = .ok q ∧
      q.read (position + u.length) c = .error e := by
  induction s generalizing p position with
  | nil => cases h
  | cons c s ih =>
    rw [readFrom] at h
    cases hc : p.read position c with
    | error e' =>
      rw [hc] at h
      cases h
      exact ⟨[], c, s, p, rfl, rfl, hc⟩
    | ok p' =>
      rw [hc] at h
      obtain ⟨u, d, v, q, rfl, hu, hd⟩ := ih h
      refine ⟨c :: u, d, v, q, rfl, ?_, ?_⟩
      · rw [readFrom_cons (read_eq_ok.mp hc), hu]
      · rw [List.length_cons, Nat.add_comm u.length 1, ← Nat.add_assoc]
        exact hd

end Progress

variable {s : List Char} {e : ParseError}

/-- **A pattern is refused at a character that is not read, or at its end.** -/
theorem parse_eq_error :
    parse s = .error e ↔
      (∃ u c v p, s = u ++ c :: v ∧ Progress.start.readFrom 0 u = .ok p ∧
        p.read u.length c = .error e) ∨
      ∃ p, Progress.start.readFrom 0 s = .ok p ∧ p.finish s.length = .error e := by
  rw [Progress.parse_eq]
  constructor
  · intro h
    cases hs : Progress.start.readFrom 0 s with
    | error e' =>
      rw [hs] at h
      cases h
      obtain ⟨u, c, v, p, hsplit, hu, hc⟩ := Progress.exists_of_readFrom_eq_error hs
      rw [Nat.zero_add] at hc
      exact .inl ⟨u, c, v, p, hsplit, hu, hc⟩
    | ok p =>
      rw [hs] at h
      exact .inr ⟨p, rfl, h⟩
  · rintro (⟨u, c, v, p, rfl, hu, hc⟩ | ⟨p, hs, hfinish⟩)
    · rw [Progress.readFrom_append, hu]
      show (p.readFrom (0 + u.length) (c :: v) >>= _) = _
      rw [Progress.readFrom, Nat.zero_add, hc]
      rfl
    · rw [hs]
      exact hfinish

/-- **The viable strings are those that are read to their end.** -/
theorem viable_iff : Viable s ↔ ∃ p, Progress.start.readFrom 0 s = .ok p := by
  constructor
  · rintro ⟨rest, t, h⟩
    obtain ⟨p, hp, -⟩ := Progress.parse_eq_ok.mp h
    obtain ⟨q, hq, -⟩ := Progress.readFrom_append_eq_ok.mp hp
    exact ⟨q, hq⟩
  · rintro ⟨p, hp⟩
    exact Progress.viable_of_readFrom hp

/-- After a character that is refused nothing helps. -/
theorem not_viable_of_read {p : Progress} {c : Char} (hs : Progress.start.readFrom 0 s = .ok p)
    (hc : p.read s.length c = .error e) : ¬ Viable (s ++ [c]) := by
  rw [viable_iff]
  rintro ⟨q, hq⟩
  obtain ⟨p', hp', hread⟩ := Progress.readFrom_append_eq_ok.mp hq
  rw [hs] at hp'
  cases hp'
  rw [Nat.zero_add, Progress.readFrom, hc] at hread
  cases hread

/-- **An error stands at the earliest place**: the pattern before it can be continued, and with the
character at it, if there is one, it cannot. -/
theorem error_position_earliest {s : List Char} {e : ParseError} (h : parse s = .error e) :
    e.position ≤ s.length ∧ Viable (s.take e.position) ∧
      (e.position = s.length ∨ ¬ Viable (s.take (e.position + 1))) := by
  rcases parse_eq_error.mp h with ⟨u, c, v, p, rfl, hu, hc⟩ | ⟨p, hs, hfinish⟩
  · have hposition : e.position = u.length := Progress.position_of_read hc
    have hbefore : (u ++ c :: v).take u.length = u := List.take_left
    have hwith : (u ++ c :: v).take (u.length + 1) = u ++ [c] := by
      rw [List.take_length_add_append]
      rfl
    rw [hposition, hbefore, hwith]
    refine ⟨by simp, viable_iff.mpr ⟨p, hu⟩, .inr (not_viable_of_read hu hc)⟩
  · have hposition : e.position = s.length := Progress.position_of_finish hfinish
    rw [hposition, List.take_length]
    exact ⟨Nat.le_refl _, viable_iff.mpr ⟨p, hs⟩, .inl rfl⟩

/-- A group is open and quantified twice: before the second quantifier all can still be mended. -/
theorem error_position_earliest_group :
    parse ['(', 'a', '*', '?', ')'] = .error (.unclosedGroup 0 3) ∧
      Viable ['(', 'a', '*'] ∧ ¬ Viable ['(', 'a', '*', '?'] := by
  have hparse : parse ['(', 'a', '*', '?', ')'] = .error (.unclosedGroup 0 3) := rfl
  obtain ⟨-, hbefore, hwith⟩ := error_position_earliest hparse
  refine ⟨hparse, hbefore, ?_⟩
  rcases hwith with hend | hwith
  · exact absurd hend (by decide)
  · exact hwith

end PatternAutomata
