import PatternAutomata.Proofs.Framing
import PatternAutomata.Proofs.ViablePrefix
/-!
# What an error says is true of the pattern

Each kind of error makes a statement on the pattern it refuses (`ParseError.TrueOf`): which
character stands where, and which part of the pattern is a pattern itself. These statements are true
(`parse_error_trueOf`). A character is refused for one of two reasons: no operand can begin with it,
or an operand is complete and the character neither quantifies it nor closes a group
(`read_eq_error`).

Refused tokens are tokens of characters. A juxtaposition stands only where an operand is complete,
and there it is never refused (`kind_ne_concat_of_refusesAt`).
-/
namespace PatternAutomata

/-- What the error says of the pattern `s`. -/
def ParseError.TrueOf (s : List Char) : ParseError → Prop
  | unexpectedChar found position =>
    position < s.length ∧ s[position]? = some found ∧ isLiteralChar found = false ∧ found ≠ '('
  | unexpectedEnd position =>
    position = s.length ∧ (s = [] ∨ s.getLast? = some '(' ∨ s.getLast? = some '|')
  | trailingInput found position =>
    position < s.length ∧ s[position]? = some found ∧ (found = ')' ∨ found = '*' ∨ found = '?') ∧
      ∃ t, parse (s.take position) = .ok t
  | unclosedGroup opened position =>
    opened < position ∧ position ≤ s.length ∧ s[opened]? = some '(' ∧
      (∃ t, parse ((s.take position).drop (opened + 1)) = .ok t) ∧
      (position = s.length ∨ s[position]? = some '*' ∨ s[position]? = some '?')

namespace Progress

variable {p q : Progress} {position : Nat} {c : Char} {s : List Char} {t : Token} {e : ParseError}

/-! ## Where an operand is missing -/

/-- An operand has to begin after an opening parenthesis and after a bar. -/
theorem Reads.eq_of_operand_eq_none (h : Reads position p c q) (hq : q.operand = none) :
    c = '(' ∨ c = '|' := by
  induction h with
  | opens => exact .inl rfl
  | bar => exact .inr rfl
  | juxtaposed _ ih => exact ih hq
  | literal _ | star | question | closes => cases hq

theorem getLast?_of_operand_eq_none (h : start.readFrom 0 s = .ok p) (hp : p.operand = none) :
    s = [] ∨ s.getLast? = some '(' ∨ s.getLast? = some '|' := by
  rcases List.eq_nil_or_concat s with rfl | ⟨u, c, rfl⟩
  · exact .inl rfl
  · rw [List.concat_eq_append] at h ⊢
    obtain ⟨q, -, hc⟩ := readFrom_append_eq_ok.mp h
    obtain ⟨p', hreads, hp'⟩ := readFrom_cons_eq_ok.mp hc
    cases hp'
    rw [List.getLast?_concat, Option.some_inj, Option.some_inj]
    exact .inr (hreads.eq_of_operand_eq_none hp)

/-! ## Refused tokens -/

/-- The first of the tokens is a juxtaposition after an operand, or the token of a character. The
others are again those of characters. -/
theorem tokensFrom_eq_cons {afterOperand : Bool} {rest : List Token}
    (h : tokensFrom afterOperand position s = t :: rest) :
    (afterOperand = true ∨ ∃ c, t.kind = .ofChar c) ∧
      ∃ position' s', rest = tokensFrom t.kind.endsOperand position' s' := by
  cases s with
  | nil => cases h
  | cons c s =>
    rw [tokensFrom] at h
    split at h
    · next hconcat =>
      obtain ⟨rfl, rfl⟩ := List.cons.inj h
      exact ⟨.inl (Bool.and_eq_true_iff.mp hconcat).1, position, c :: s, rfl⟩
    · obtain ⟨rfl, rfl⟩ := List.cons.inj h
      exact ⟨.inr ⟨c, rfl⟩, position + 1, s, rfl⟩

/-- A juxtaposition is read wherever an operand is complete. -/
theorem step_of_kind_eq_concat (ho : p.operand.isSome = true) (hk : t.kind = .concat) :
    ∃ p', p.step t = .ok p' := by
  obtain ⟨o, ho⟩ := Option.isSome_iff_exists.mp ho
  refine ⟨p.juxtapose o, ?_⟩
  rw [step, ho]
  simp only [stepOperator, hk]
  rfl

/-- What is left of the tokens is what is left of the characters, as the progress shows it. -/
theorem exists_tokensFrom_of_append {before rest : List Token}
    (h : tokensFrom p.operand.isSome position s = before ++ rest)
    (hread : before.foldlM step p = .ok q) :
    ∃ position' s', rest = tokensFrom q.operand.isSome position' s' := by
  induction before generalizing p position s with
  | nil =>
    cases hread
    exact ⟨position, s, h.symm⟩
  | cons b before ih =>
    rw [List.foldlM_cons] at hread
    cases hb : p.step b with
    | error e =>
      rw [hb] at hread
      cases hread
    | ok p' =>
      rw [hb] at hread
      obtain ⟨-, position', s', hrest⟩ := tokensFrom_eq_cons h
      rw [← isSome_operand_of_step hb] at hrest
      exact ih hrest.symm hread

/-- Stepping fails at a token, after all tokens before it were read. -/
theorem exists_of_foldlM_eq_error {ts : List Token} (h : ts.foldlM step p = .error e) :
    ∃ before after q t, ts = before ++ t :: after ∧ before.foldlM step p = .ok q ∧
      q.step t = .error e := by
  induction ts generalizing p with
  | nil => cases h
  | cons t ts ih =>
    rw [List.foldlM_cons] at h
    cases ht : p.step t with
    | error e' =>
      rw [ht] at h
      cases h
      exact ⟨[], ts, p, t, rfl, rfl, ht⟩
    | ok p' =>
      rw [ht] at h
      obtain ⟨before, after, q, t', rfl, hread, hstep⟩ := ih h
      refine ⟨t :: before, after, q, t', rfl, ?_, hstep⟩
      rw [List.foldlM_cons, ht]
      exact hread

theorem ofChar_ne_concat (c : Char) : TokenKind.ofChar c ≠ .concat := by
  unfold TokenKind.ofChar
  split <;> try exact TokenKind.noConfusion
  split <;> exact TokenKind.noConfusion

end Progress

/-- The tokens of `s` before `t` are read, and `t` is refused. -/
def RefusesAt (s : List Char) (e : ParseError) (t : Token) : Prop :=
  ∃ before after p, tokenize s = before ++ t :: after ∧
    before.foldlM Progress.step .start = .ok p ∧ p.step t = .error e

/-- **No juxtaposition is refused.** -/
theorem kind_ne_concat_of_refusesAt {s : List Char} {e : ParseError} {t : Token}
    (h : RefusesAt s e t) : t.kind ≠ .concat := by
  obtain ⟨before, after, p, htokens, hread, hstep⟩ := h
  have hall : tokensFrom Progress.start.operand.isSome 0 s = before ++ t :: after := htokens
  obtain ⟨position, u, hleft⟩ := Progress.exists_tokensFrom_of_append hall hread
  intro hkind
  obtain ⟨ho | ⟨c, hc⟩, -⟩ := Progress.tokensFrom_eq_cons hleft.symm
  · obtain ⟨p', hp'⟩ := Progress.step_of_kind_eq_concat ho hkind
    rw [hp'] at hstep
    cases hstep
  · rw [hkind] at hc
    exact Progress.ofChar_ne_concat c hc.symm

theorem position_of_refusesAt {s : List Char} {e : ParseError} {t : Token}
    (h : RefusesAt s e t) : e.position = t.position := by
  obtain ⟨-, -, p, -, -, hstep⟩ := h
  exact Progress.position_of_step hstep

/-- A pattern is refused at a token or at its end. -/
theorem exists_refusesAt {s : List Char} {e : ParseError} (h : parse s = .error e) :
    (∃ t, RefusesAt s e t) ∨ e.position = s.length := by
  unfold parse at h
  cases hs : (tokenize s).foldlM Progress.step .start with
  | error e' =>
    rw [hs] at h
    cases h
    obtain ⟨before, after, p, t, htokens, hread, hstep⟩ := Progress.exists_of_foldlM_eq_error hs
    exact .inl ⟨t, before, after, p, htokens, hread, hstep⟩
  | ok p =>
    rw [hs] at h
    exact .inr (Progress.position_of_finish h)

/-! ## What errors say -/

section
variable {u v s : List Char} {p : Progress} {c : Char} {e : ParseError}

/-- A group that is open after `u` cannot go on with `v`. -/
theorem trueOf_unclosedGroup {g : OpenGroup} {gs : List OpenGroup} {l : Level} {o : Operand}
    (hu : Progress.start.readFrom 0 u = .ok ⟨g :: gs, l, some o⟩)
    (hv : v = [] ∨ v.head? = some '*' ∨ v.head? = some '?') :
    (ParseError.unclosedGroup g.position u.length).TrueOf (u ++ v) := by
  obtain ⟨outer, inner, rfl, hposition, hparse⟩ := (Progress.enclosed_of_readFrom hu).exists_parse
  have hinner : (outer ++ '(' :: inner).drop (outer.length + 1) = inner := by
    rw [List.drop_length_add_append]
    rfl
  rw [hposition]
  refine ⟨by simp, by simp, by simp, ⟨l.close o.tree, ?_⟩, ?_⟩
  · rw [List.take_left, hinner]
    exact hparse
  · rw [List.getElem?_append_right (Nat.le_refl _), Nat.sub_self, ← List.head?_eq_getElem?]
    rcases hv with rfl | hv
    · exact .inl (by simp)
    · exact .inr hv

/-- What is said of a character that is refused after `u` is true. -/
theorem trueOf_of_read (hu : Progress.start.readFrom 0 u = .ok p)
    (h : p.read u.length c = .error e) : e.TrueOf (u ++ c :: v) := by
  have hlt : u.length < (u ++ c :: v).length := by simp
  have hfound : (u ++ c :: v)[u.length]? = some c := by simp
  rcases Progress.read_eq_error h with ⟨rfl, hliteral, hopen⟩ | ⟨o, ho, rfl, hc⟩
  · exact ⟨hlt, hfound, hliteral, hopen⟩
  · obtain ⟨gs, l, _⟩ := p
    obtain rfl : _ = some o := ho
    cases gs with
    | nil =>
      refine ⟨hlt, hfound, ?_, l.close o.tree, ?_⟩
      · rcases hc with hc | hc | ⟨hc, -⟩
        · exact .inr (.inl hc)
        · exact .inr (.inr hc)
        · exact .inl hc
      · rw [List.take_left]
        exact Progress.parse_eq_ok.mpr ⟨_, hu, rfl⟩
    | cons g gs =>
      refine trueOf_unclosedGroup hu (.inr ?_)
      rcases hc with rfl | rfl | ⟨-, hgs⟩
      · exact .inl rfl
      · exact .inr rfl
      · cases hgs

/-- What is said of a pattern that must not end is true. -/
theorem trueOf_of_finish (hs : Progress.start.readFrom 0 s = .ok p)
    (h : p.finish s.length = .error e) : e.TrueOf s := by
  obtain ⟨gs, l, o⟩ := p
  cases o with
  | none =>
    cases h
    exact ⟨rfl, Progress.getLast?_of_operand_eq_none hs rfl⟩
  | some o =>
    cases gs with
    | nil => cases h
    | cons g gs =>
      cases h
      have htrue := trueOf_unclosedGroup hs (v := []) (.inl rfl)
      rwa [List.append_nil] at htrue

/-- **Every error tells the truth about the pattern**: the character that it names stands where it
says, and what it calls complete is a pattern. It stands at the end or at a token that is refused,
and such a token is never a juxtaposition. -/
theorem parse_error_trueOf (h : parse s = .error e) :
    e.TrueOf s ∧ ((∃ t, RefusesAt s e t) ∨ e.position = s.length) ∧
      ∀ t, RefusesAt s e t → t.kind ≠ .concat ∧ t.position = e.position := by
  refine ⟨?_, exists_refusesAt h, ?_⟩
  · rcases parse_eq_error.mp h with ⟨u, c, v, p, rfl, hu, hc⟩ | ⟨p, hs, hfinish⟩
    · exact trueOf_of_read hu hc
    · exact trueOf_of_finish hs hfinish
  · intro t ht
    exact ⟨kind_ne_concat_of_refusesAt ht, (position_of_refusesAt ht).symm⟩

end

/-- A group that is quantified twice inside another one, and a dot: the juxtaposition before the dot
is read, and the dot itself is refused. -/
theorem parse_error_trueOf_group :
    parse "a(b|(c)*?)".toList = .error (.unclosedGroup 1 8) ∧
      (∃ t, parse "b|(c)*".toList = .ok t) ∧
      parse "(a).b".toList = .error (.unexpectedChar '.' 3) ∧
      RefusesAt "(a).b".toList (.unexpectedChar '.' 3) ⟨.other '.', 3⟩ ∧
      TokenKind.other '.' ≠ .concat := by
  have hgroup : parse "a(b|(c)*?)".toList = .error (.unclosedGroup 1 8) := rfl
  have hdot : parse "(a).b".toList = .error (.unexpectedChar '.' 3) := rfl
  have hrefused : RefusesAt "(a).b".toList (.unexpectedChar '.' 3) ⟨.other '.', 3⟩ :=
    ⟨[⟨.groupOpen, 0⟩, ⟨.literal 'a', 1⟩, ⟨.groupClose, 2⟩, ⟨.concat, 3⟩], [⟨.literal 'b', 4⟩], _,
      by decide, rfl, rfl⟩
  obtain ⟨⟨-, -, -, hinside, -⟩, -⟩ := parse_error_trueOf hgroup
  obtain ⟨-, -, hkind⟩ := parse_error_trueOf hdot
  exact ⟨hgroup, hinside, hdot, hrefused, (hkind _ hrefused).1⟩

end PatternAutomata
