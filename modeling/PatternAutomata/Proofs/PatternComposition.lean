import PatternAutomata.Proofs.Framing
import PatternAutomata.Proofs.ParseGrammar
/-!
# Patterns put together

A pattern in parentheses is an atom, so patterns in parentheses can be put together with any
operator, whatever they are. The parentheses leave no trace: an atom may be replaced by any other
that stands for the same tree, in every context (`parse_congr_atom`), and so by itself in a second
pair of parentheses.

Every tree over letters and digits is put together in this way (`Tree.pattern`), so these are the
trees of patterns (`exists_parse_iff`).
-/
namespace PatternAutomata

/-- A pattern in parentheses. -/
def parenthesized (s : List Char) : List Char := '(' :: s ++ [')']

variable {r s s' u v : List Char} {x y t : Tree}

/-! ## Atoms in context -/

namespace Derives

theorem parenthesized (h : Derives .alternative s t) : Derives .atom (parenthesized s) t := .group h

theorem sequence_of_atom (h : Derives .atom s t) : Derives .sequence s t := .oneItem (.plain h)

theorem alternative_of_atom (h : Derives .atom s t) : Derives .alternative s t :=
  .oneBranch h.sequence_of_atom

end Derives

namespace Progress

variable {p q : Progress} {n : Nat}

/-- An atom for `x` was read; it stands beside the operand before it, if there is one. -/
def afterAtom (p : Progress) (x : Tree) : Progress where
  groups := p.groups
  level := match p.operand with
    | none => p.level
    | some o => p.level.addItem o.tree
  operand := some ⟨x, true⟩

/-- **All atoms for a tree are read alike.** -/
theorem readFrom_atom (h : Derives .atom s x) (p : Progress) (position : Nat) :
    p.readFrom position s = .ok (p.afterAtom x) := by
  have hatom := readsRule h
  obtain ⟨gs, l, o⟩ := p
  cases o with
  | none => exact hatom gs l position
  | some o =>
    rw [readFrom_juxtaposed h]
    exact hatom gs (l.addItem o.tree) position

/-- Where the parentheses stand makes no difference at the end. -/
theorem Framed.finish (hpq : Framed [] p q) (h : p.finish n = .ok t) (n' : Nat) :
    q.finish n' = .ok t := by
  obtain ⟨gs, l, o⟩ := p
  obtain ⟨gs', l', o'⟩ := q
  obtain ⟨hgroups, hlevel, hoperand⟩ := hpq
  dsimp only at hgroups hlevel hoperand
  subst hlevel hoperand
  cases o' with
  | none => cases h
  | some o =>
    cases gs with
    | nil =>
      obtain rfl : gs' = [] := List.map_eq_nil_iff.mp hgroups
      exact h
    | cons g gs => cases h

end Progress

theorem parse_replace_atom (h : Derives .atom s x) (h' : Derives .atom s' x)
    (ht : parse (u ++ s ++ v) = .ok t) : parse (u ++ s' ++ v) = .ok t := by
  obtain ⟨p, hread, hfinish⟩ := Progress.parse_eq_ok.mp ht
  obtain ⟨q, hq, hv⟩ := Progress.readFrom_append_eq_ok.mp hread
  obtain ⟨b, hb, hs⟩ := Progress.readFrom_append_eq_ok.mp hq
  rw [Progress.readFrom_atom h] at hs
  cases hs
  -- what follows is read at another position
  obtain ⟨p', hv', hframed⟩ := Progress.readFrom_framed hv (.refl _) (0 + (u ++ s').length)
  have hu : Progress.start.readFrom 0 (u ++ s') = .ok (b.afterAtom x) :=
    Progress.readFrom_append_eq_ok.mpr ⟨b, hb, Progress.readFrom_atom h' b _⟩
  have hwhole := Progress.readFrom_append_eq_ok.mpr ⟨_, hu, hv'⟩
  exact Progress.parse_eq_ok.mpr ⟨p', hwhole, hframed.finish hfinish _⟩

/-- **Atoms for the same tree may replace each other** in every context. -/
theorem parse_congr_atom (h : Derives .atom s x) (h' : Derives .atom s' x) :
    parse (u ++ s ++ v) = .ok t ↔ parse (u ++ s' ++ v) = .ok t :=
  ⟨parse_replace_atom h h', parse_replace_atom h' h⟩

/-! ## Patterns in parentheses -/

section
variable (hr : parse r = .ok x) (hs : parse s = .ok y)
include hr

theorem parenthesized_of_parse : Derives .atom (parenthesized r) x :=
  (derives_of_parse hr).parenthesized

theorem parse_parenthesized : parse (parenthesized r) = .ok x :=
  parse_of_derives (parenthesized_of_parse hr).alternative_of_atom

theorem parse_star : parse (parenthesized r ++ ['*']) = .ok (.star x) :=
  parse_of_derives (.oneBranch (.oneItem (.star (parenthesized_of_parse hr))))

theorem parse_optional : parse (parenthesized r ++ ['?']) = .ok (.optional x) :=
  parse_of_derives (.oneBranch (.oneItem (.optional (parenthesized_of_parse hr))))

include hs

theorem parse_sequence : parse (parenthesized r ++ parenthesized s) = .ok (.sequence x y) := by
  have hx := parenthesized_of_parse hr
  have hy := parenthesized_of_parse hs
  exact parse_of_derives (.oneBranch (.item (.plain hx) hy.sequence_of_atom))

theorem parse_alternative :
    parse (parenthesized r ++ '|' :: parenthesized s) = .ok (.alternative x y) := by
  have hx := parenthesized_of_parse hr
  have hy := parenthesized_of_parse hs
  exact parse_of_derives (.branch hx.sequence_of_atom hy.alternative_of_atom)

end

/-! ## Trees of patterns -/

/-- A pattern for a tree, with parentheses around everything but literals. -/
def Tree.pattern : Tree → List Char
  | literal c => [c]
  | sequence x y => parenthesized (x.pattern ++ y.pattern)
  | alternative x y => parenthesized (x.pattern ++ '|' :: y.pattern)
  | star x => parenthesized (x.pattern ++ ['*'])
  | optional x => parenthesized (x.pattern ++ ['?'])

theorem Tree.derives_pattern (h : ∀ c ∈ t.literals, isLiteralChar c = true) :
    Derives .atom t.pattern t := by
  induction t with
  | literal c => exact .literal (h c List.mem_cons_self)
  | sequence x y hx hy =>
    have hx := hx fun c hc => h c (List.mem_append_left _ hc)
    have hy := hy fun c hc => h c (List.mem_append_right _ hc)
    exact .parenthesized (.oneBranch (.item (.plain hx) hy.sequence_of_atom))
  | alternative x y hx hy =>
    have hx := hx fun c hc => h c (List.mem_append_left _ hc)
    have hy := hy fun c hc => h c (List.mem_append_right _ hc)
    exact .parenthesized (.branch hx.sequence_of_atom hy.alternative_of_atom)
  | star x hx => exact .parenthesized (.oneBranch (.oneItem (.star (hx h))))
  | optional x hx => exact .parenthesized (.oneBranch (.oneItem (.optional (hx h))))

/-- **The trees of patterns are those over letters and digits.** -/
theorem exists_parse_iff :
    (∃ s, parse s = .ok t) ↔ ∀ c ∈ t.literals, isLiteralChar c = true := by
  constructor
  · rintro ⟨s, hs⟩ c hc
    exact isLiteralChar_of_mem_literals hs hc
  · intro h
    exact ⟨t.pattern, parse_of_derives (Tree.derives_pattern h).alternative_of_atom⟩

/-- **Parsing is compositional**: patterns in parentheses are put together as their trees are, a
second pair of parentheses makes no difference anywhere, and every tree over letters and digits has
a pattern. -/
theorem parse_compositional :
    (∀ r s x y, parse r = .ok x → parse s = .ok y →
      parse (parenthesized r) = .ok x ∧
      parse (parenthesized r ++ ['*']) = .ok (.star x) ∧
      parse (parenthesized r ++ ['?']) = .ok (.optional x) ∧
      parse (parenthesized r ++ parenthesized s) = .ok (.sequence x y) ∧
      parse (parenthesized r ++ '|' :: parenthesized s) = .ok (.alternative x y) ∧
      ∀ u v t, parse (u ++ parenthesized r ++ v) = .ok t ↔
        parse (u ++ parenthesized (parenthesized r) ++ v) = .ok t) ∧
    ∀ t, (∃ s, parse s = .ok t) ↔ ∀ c ∈ t.literals, isLiteralChar c = true := by
  refine ⟨?_, fun t => exists_parse_iff⟩
  intro r s x y hr hs
  refine ⟨parse_parenthesized hr, parse_star hr, parse_optional hr, parse_sequence hr hs,
    parse_alternative hr hs, ?_⟩
  intro u v t
  have hatom := parenthesized_of_parse hr
  exact parse_congr_atom hatom (.parenthesized hatom.alternative_of_atom)

/-- The group stands between an operand and a quantifier. -/
theorem parse_compositional_quantified :
    parse ['a', '|', 'b'] = .ok (.alternative (.literal 'a') (.literal 'b')) ∧
      parse ['c', '(', '(', 'a', '|', 'b', ')', ')', '*'] =
        .ok (.sequence (.literal 'c') (.star (.alternative (.literal 'a') (.literal 'b')))) ∧
      ∃ s, parse s = .ok (.star (.star (.literal 'a'))) := by
  have hr : parse ['a', '|', 'b'] = .ok (.alternative (.literal 'a') (.literal 'b')) := rfl
  have hletters : ∀ c ∈ (Tree.star (.star (.literal 'a'))).literals, isLiteralChar c = true := by
    intro c hc
    rw [List.mem_singleton.mp hc]
    rfl
  obtain ⟨hcompose, honto⟩ := parse_compositional
  obtain ⟨-, -, -, -, -, htwice⟩ := hcompose _ _ _ _ hr hr
  exact ⟨hr, (htwice ['c'] ['*'] _).mp rfl, (honto _).mpr hletters⟩

end PatternAutomata
