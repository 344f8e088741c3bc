import PatternAutomata.Proofs.Reading
/-!
# The parser and the grammar

The parser accepts exactly what the grammar derives, and gives the tree that it derives
(`parse_iff_derives`).

Completeness is by induction on the derivation: from any progress that expects an operand, reading
what a rule derives adds its tree to the level at hand and leaves the open groups alone. For
soundness a progress is taken for the characters that led to it: what is finished on a level stands
for a prefix that turns a derivation of the rest into one of the whole (`Level.Spelled`).
-/
namespace PatternAutomata

namespace Derives

variable {rule : Rule} {s : List Char} {t : Tree}

/-- What a rule derives begins with a literal or with a parenthesis. -/
theorem exists_cons (h : Derives rule s t) :
    ∃ c s', s = c :: s' ∧ (isLiteralChar c = true ∨ c = '(') := by
  induction h with
  | oneBranch _ ih | oneItem _ ih | plain _ ih => exact ih
  | branch _ _ ih _ | item _ _ ih _ | star _ ih | optional _ ih =>
    obtain ⟨c, s', rfl, hc⟩ := ih
    exact ⟨c, _, rfl, hc⟩
  | literal hc => exact ⟨_, _, rfl, .inl hc⟩
  | group _ _ => exact ⟨_, _, rfl, .inr rfl⟩

end Derives

/-! ## Completeness -/

namespace Progress

variable {gs : List OpenGroup} {l : Level} {o : Operand} {s : List Char} {t : Tree} {position : Nat}

/-- Where an operand begins after another one, the two are juxtaposed. -/
theorem readFrom_juxtaposed {rule : Rule} (h : Derives rule s t) :
    readFrom ⟨gs, l, some o⟩ position s = readFrom ⟨gs, l.addItem o.tree, none⟩ position s := by
  obtain ⟨c, s', rfl, hc | rfl⟩ := h.exists_cons
  · rw [readFrom_cons (.literal hc), readFrom_cons (.juxtaposed (.literal hc))]
  · rw [readFrom_cons .opens, readFrom_cons (.juxtaposed .opens)]

/-- What reading the characters of a rule does to a progress that expects an operand. -/
def ReadsRule : Rule → List Char → Tree → Prop
  | .atom, s, t => ∀ gs l position,
      readFrom ⟨gs, l, none⟩ position s = .ok ⟨gs, l, some ⟨t, true⟩⟩
  | .quantified, s, t => ∀ gs l position, ∃ quantifiable,
      readFrom ⟨gs, l, none⟩ position s = .ok ⟨gs, l, some ⟨t, quantifiable⟩⟩
  | .sequence, s, t => ∀ gs l position, ∃ items o,
      readFrom ⟨gs, l, none⟩ position s = .ok ⟨gs, ⟨l.branches, items⟩, some o⟩ ∧
        Level.branch ⟨l.branches, items⟩ o.tree = l.branch t
  | .alternative, s, t => ∀ gs branches position, ∃ l o,
      readFrom ⟨gs, ⟨branches, []⟩, none⟩ position s = .ok ⟨gs, l, some o⟩ ∧
        l.close o.tree = Level.close ⟨branches, []⟩ t

theorem readsRule_oneBranch (h : ReadsRule .sequence s t) : ReadsRule .alternative s t := by
  intro gs branches position
  obtain ⟨items, o, hread, hbranch⟩ := h gs ⟨branches, []⟩ position
  refine ⟨_, o, hread, ?_⟩
  rw [Level.close, hbranch]
  rfl

theorem readsRule_branch {r : List Char} {u : Tree} (hs : ReadsRule .sequence s t)
    (hr : ReadsRule .alternative r u) :
    ReadsRule .alternative (s ++ '|' :: r) (.alternative t u) := by
  intro gs branches position
  obtain ⟨items, o, hread, hbranch⟩ := hs gs ⟨branches, []⟩ position
  obtain ⟨l, o', hread', hclose⟩ := hr gs (t :: branches) (position + s.length + 1)
  have hadd : Level.addBranch ⟨branches, items⟩ o.tree = ⟨t :: branches, []⟩ := by
    rw [Level.addBranch, hbranch]
    rfl
  refine ⟨l, o', ?_, hclose⟩
  refine readFrom_append_eq_ok.mpr ⟨_, hread, ?_⟩
  rw [readFrom_cons .bar, hadd, hread']

theorem readsRule_oneItem (h : ReadsRule .quantified s t) : ReadsRule .sequence s t := by
  intro gs l position
  obtain ⟨quantifiable, hread⟩ := h gs l position
  exact ⟨l.items, ⟨t, quantifiable⟩, hread, rfl⟩

theorem readsRule_item {r : List Char} {u : Tree} (hr : Derives .sequence r u)
    (hs : ReadsRule .quantified s t) (ihr : ReadsRule .sequence r u) :
    ReadsRule .sequence (s ++ r) (.sequence t u) := by
  intro gs l position
  obtain ⟨quantifiable, hread⟩ := hs gs l position
  obtain ⟨items, o, hread', hbranch⟩ := ihr gs (l.addItem t) (position + s.length)
  refine ⟨items, o, ?_, hbranch⟩
  refine readFrom_append_eq_ok.mpr ⟨_, hread, ?_⟩
  rw [readFrom_juxtaposed hr, hread']
  rfl

theorem readsRule_plain (h : ReadsRule .atom s t) : ReadsRule .quantified s t :=
  fun gs l position => ⟨true, h gs l position⟩

theorem readsRule_star (h : ReadsRule .atom s t) :
    ReadsRule .quantified (s ++ ['*']) (.star t) := by
  intro gs l position
  exact ⟨false, readFrom_snoc (h gs l position) .star⟩

theorem readsRule_optional (h : ReadsRule .atom s t) :
    ReadsRule .quantified (s ++ ['?']) (.optional t) := by
  intro gs l position
  exact ⟨false, readFrom_snoc (h gs l position) .question⟩

theorem readsRule_group (h : ReadsRule .alternative s t) :
    ReadsRule .atom ('(' :: s ++ [')']) t := by
  intro gs l position
  obtain ⟨l', o, hread, hclose⟩ := h (⟨position, l⟩ :: gs) [] (position + 1)
  rw [List.cons_append, readFrom_cons .opens]
  refine readFrom_append_eq_ok.mpr ⟨_, hread, ?_⟩
  rw [readFrom_cons .closes, hclose]
  rfl

/-- **Whatever a rule derives is read as its tree.** -/
theorem readsRule {rule : Rule} (h : Derives rule s t) : ReadsRule rule s t := by
  induction h with
  | oneBranch _ ih => exact readsRule_oneBranch ih
  | branch _ _ ihs ihr => exact readsRule_branch ihs ihr
  | oneItem _ ih => exact readsRule_oneItem ih
  | item _ hr ihs ihr => exact readsRule_item hr ihs ihr
  | plain _ ih => exact readsRule_plain ih
  | star _ ih => exact readsRule_star ih
  | optional _ ih => exact readsRule_optional ih
  | literal hc => exact fun gs l position => readFrom_cons (.literal hc)
  | group _ ih => exact readsRule_group ih

end Progress

theorem parse_of_derives {s : List Char} {t : Tree} (h : Derives .alternative s t) :
    parse s = .ok t := by
  obtain ⟨l, o, hread, hclose⟩ := Progress.readsRule h [] [] 0
  refine Progress.parse_eq_ok.mpr ⟨_, hread, ?_⟩
  show Except.ok (l.close o.tree) = _
  rw [hclose]
  rfl

/-! ## Soundness -/

/-- The operand stands for the characters `s`. -/
def Operand.Spelled (o : Operand) (s : List Char) : Prop :=
  Derives (if o.quantifiable then .atom else .quantified) s o.tree

theorem Operand.Spelled.quantified {o : Operand} {s : List Char} (h : o.Spelled s) :
    Derives .quantified s o.tree := by
  unfold Operand.Spelled at h
  split at h
  · exact .plain h
  · exact h

namespace Level

/-- The items stand for `s`: put before a derivation of the rest of the branch, `s` gives one of the
branch. -/
def SpelledItems (items : List Tree) (s : List Char) : Prop :=
  ∀ r t, Derives .sequence r t →
    Derives .sequence (s ++ r) (items.foldl (fun rest item => .sequence item rest) t)

/-- The branches stand for `s`: put before a derivation of the rest of the level, `s` gives one of
the level. -/
def SpelledBranches (branches : List Tree) (s : List Char) : Prop :=
  ∀ r t, Derives .alternative r t →
    Derives .alternative (s ++ r) (branches.foldl (fun rest branch => .alternative branch rest) t)

/-- What is finished on the level stands for `s`. -/
def Spelled (l : Level) (s : List Char) : Prop :=
  ∃ u v, s = u ++ v ∧ SpelledBranches l.branches u ∧ SpelledItems l.items v

namespace Spelled

variable {l : Level} {o : Operand} {s v : List Char}

theorem empty : Level.empty.Spelled [] := by
  refine ⟨[], [], rfl, ?_, ?_⟩
  · intro r t h
    exact h
  · intro r t h
    exact h

theorem addItem (hl : l.Spelled s) (ho : o.Spelled v) : (l.addItem o.tree).Spelled (s ++ v) := by
  obtain ⟨u, w, rfl, hbranches, hitems⟩ := hl
  refine ⟨u, w ++ v, List.append_assoc u w v, hbranches, ?_⟩
  intro r t h
  rw [List.append_assoc]
  exact hitems (v ++ r) _ (.item ho.quantified h)

/-- The branch at hand, ended by the operand, is a sequence. -/
theorem branch {w : List Char} (hitems : SpelledItems l.items w) (ho : o.Spelled v) :
    Derives .sequence (w ++ v) (l.branch o.tree) :=
  hitems v o.tree (.oneItem ho.quantified)

theorem addBranch (hl : l.Spelled s) (ho : o.Spelled v) :
    (l.addBranch o.tree).Spelled (s ++ v ++ ['|']) := by
  obtain ⟨u, w, rfl, hbranches, hitems⟩ := hl
  refine ⟨u ++ w ++ v ++ ['|'], [], by simp, ?_, ?_⟩
  · intro r t h
    have hwhole := hbranches _ _ (.branch (branch hitems ho) h)
    simpa [Level.addBranch] using hwhole
  · intro r t h
    exact h

/-- **The level, ended by the operand, is a whole pattern.** -/
theorem close (hl : l.Spelled s) (ho : o.Spelled v) :
    Derives .alternative (s ++ v) (l.close o.tree) := by
  obtain ⟨u, w, rfl, hbranches, hitems⟩ := hl
  rw [List.append_assoc]
  exact hbranches _ _ (.oneBranch (branch hitems ho))

end Spelled
end Level

/-- The open groups stand for the characters up to the innermost parenthesis. -/
inductive OpenGroup.Spelled : List OpenGroup → List Char → Prop
  | nil : Spelled [] []
  | cons {g : OpenGroup} {gs : List OpenGroup} {s u : List Char} :
      Spelled gs s → g.outside.Spelled u → Spelled (g :: gs) (s ++ u ++ ['('])

namespace Progress

/-- The progress stands for the characters read. -/
def Spelled (p : Progress) (s : List Char) : Prop :=
  ∃ u v w, s = u ++ v ++ w ∧ OpenGroup.Spelled p.groups u ∧ p.level.Spelled v ∧
    match p.operand with
    | none => w = []
    | some o => o.Spelled w

variable {p p' : Progress} {position : Nat} {c : Char} {s r : List Char} {t : Tree}

/-- Each character keeps the progress in step with what was read. -/
theorem Spelled.read (hp : p.Spelled s) (h : Reads position p c p') : p'.Spelled (s ++ [c]) := by
  induction h generalizing s with
  | literal hc =>
    obtain ⟨u, v, w, rfl, hgs, hl, rfl⟩ := hp
    exact ⟨u, v, [_], by simp, hgs, hl, .literal hc⟩
  | opens =>
    obtain ⟨u, v, w, rfl, hgs, hl, rfl⟩ := hp
    exact ⟨u ++ v ++ ['('], [], [], by simp, .cons hgs hl, .empty, rfl⟩
  | juxtaposed _ ih =>
    obtain ⟨u, v, w, rfl, hgs, hl, ho⟩ := hp
    exact ih ⟨u, v ++ w, [], by simp, hgs, hl.addItem ho, rfl⟩
  | star =>
    obtain ⟨u, v, w, rfl, hgs, hl, ho⟩ := hp
    exact ⟨u, v, w ++ ['*'], by simp, hgs, hl, .star ho⟩
  | question =>
    obtain ⟨u, v, w, rfl, hgs, hl, ho⟩ := hp
    exact ⟨u, v, w ++ ['?'], by simp, hgs, hl, .optional ho⟩
  | bar =>
    obtain ⟨u, v, w, rfl, hgs, hl, ho⟩ := hp
    exact ⟨u, v ++ w ++ ['|'], [], by simp, hgs, hl.addBranch ho, rfl⟩
  | closes =>
    obtain ⟨u, v, w, rfl, hgs, hl, ho⟩ := hp
    cases hgs with
    | @cons _ _ u u' hgs hout =>
      exact ⟨u, u', '(' :: (v ++ w) ++ [')'], by simp, hgs, hout, .group (hl.close ho)⟩

theorem Spelled.readFrom (hp : p.Spelled s) (h : p.readFrom position r = .ok p') :
    p'.Spelled (s ++ r) := by
  induction r generalizing p s position with
  | nil =>
    cases h
    rwa [List.append_nil]
  | cons c r ih =>
    obtain ⟨p₁, hc, hrest⟩ := readFrom_cons_eq_ok.mp h
    have hwhole := ih (hp.read hc) hrest
    rwa [List.append_assoc, List.singleton_append] at hwhole

theorem Spelled.start : Progress.start.Spelled [] :=
  ⟨[], [], [], rfl, .nil, .empty, rfl⟩

/-- A pattern may end where the progress gives a tree. -/
theorem Spelled.finish {length : Nat} (hp : p.Spelled s) (h : p.finish length = .ok t) :
    Derives .alternative s t := by
  obtain ⟨gs, l, o⟩ := p
  obtain ⟨u, v, w, rfl, hgs, hl, ho⟩ := hp
  cases o with
  | none => cases h
  | some o =>
    cases hgs with
    | cons _ _ => cases h
    | nil =>
      cases h
      exact hl.close ho

end Progress

theorem derives_of_parse {s : List Char} {t : Tree} (h : parse s = .ok t) :
    Derives .alternative s t := by
  obtain ⟨p, hread, hfinish⟩ := Progress.parse_eq_ok.mp h
  exact (Progress.Spelled.start.readFrom hread).finish hfinish

/-! ## The literals of a pattern -/

/-- What a rule derives has the letters and digits for literals, in their order. -/
theorem Derives.literals_eq {rule : Rule} {s : List Char} {t : Tree} (h : Derives rule s t) :
    t.literals = s.filter isLiteralChar := by
  induction h with
  | oneBranch _ ih | oneItem _ ih | plain _ ih => exact ih
  | branch _ _ ihs ihr =>
    have hbar : isLiteralChar '|' = false := by decide
    rw [Tree.literals, ihs, ihr, List.filter_append, List.filter_cons_of_neg (by simp [hbar])]
  | item _ _ ihs ihr => rw [Tree.literals, ihs, ihr, List.filter_append]
  | star _ ih =>
    have hstar : isLiteralChar '*' = false := by decide
    rw [Tree.literals, ih, List.filter_append]
    simp [hstar]
  | optional _ ih =>
    have hquestion : isLiteralChar '?' = false := by decide
    rw [Tree.literals, ih, List.filter_append]
    simp [hquestion]
  | literal hc => simp [Tree.literals, hc]
  | group _ ih =>
    have hopen : isLiteralChar '(' = false := by decide
    have hclose : isLiteralChar ')' = false := by decide
    rw [ih, List.cons_append, List.filter_cons_of_neg (by simp [hopen]), List.filter_append]
    simp [hclose]

theorem literals_of_parse {s : List Char} {t : Tree} (h : parse s = .ok t) :
    t.literals = s.filter isLiteralChar :=
  (derives_of_parse h).literals_eq

theorem isLiteralChar_of_mem_literals {s : List Char} {t : Tree} {c : Char} (h : parse s = .ok t)
    (hc : c ∈ t.literals) : isLiteralChar c = true := by
  rw [literals_of_parse h] at hc
  exact (List.mem_filter.mp hc).2

/-! ## Exactness -/

theorem parse_iff_derives {s : List Char} {t : Tree} :
    parse s = .ok t ↔ Derives .alternative s t :=
  ⟨derives_of_parse, parse_of_derives⟩

/-- **The parser accepts exactly what the grammar derives, and the grammar is unambiguous**: a
pattern has the tree that it derives, and there is one tree at most. -/
theorem parse_exact (s : List Char) :
    (∀ t, parse s = .ok t ↔ Derives .alternative s t) ∧
    (∀ t u, Derives .alternative s t → Derives .alternative s u → t = u) ∧
    ((∃ e, parse s = .error e) ↔ ∀ t, ¬ Derives .alternative s t) := by
  refine ⟨fun t => parse_iff_derives, ?_, ?_⟩
  · intro t u ht hu
    have hparse := parse_of_derives ht
    rw [parse_of_derives hu] at hparse
    exact (Except.ok.inj hparse).symm
  · constructor
    · rintro ⟨e, he⟩ t ht
      rw [parse_of_derives ht] at he
      cases he
    · intro h
      cases hp : parse s with
      | error e => exact ⟨e, rfl⟩
      | ok t => exact absurd (derives_of_parse hp) (h t)

/-- A quantified group before a literal. -/
theorem parse_exact_group :
    ∃ t, Derives .alternative ['(', 'a', '|', 'b', ')', '*', 'c'] t ∧
      ∀ u, Derives .alternative ['(', 'a', '|', 'b', ')', '*', 'c'] u → u = t := by
  obtain ⟨hparse, hunique, -⟩ := parse_exact ['(', 'a', '|', 'b', ')', '*', 'c']
  have ht := (hparse (.sequence (.star (.alternative (.literal 'a') (.literal 'b')))
    (.literal 'c'))).mp rfl
  exact ⟨_, ht, fun u hu => hunique u _ hu ht⟩

end PatternAutomata
