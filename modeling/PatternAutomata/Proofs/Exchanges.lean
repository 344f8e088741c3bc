import Mathlib.Data.List.Forall2
import PatternAutomata.Proofs.Answers
/-!
# What a computation asks for

An outcome tells with which answers a computation ends. An exchange tells the questions as well,
each range with the number that came out of it, up to the point where the computation ends or fails.
The outcomes are the exchanges without their questions (`outcome_iff_exchange`), and the exchanges
of a computation are known from those of its parts (`exchange_bind`), whether these end well or not.
-/
namespace PatternAutomata

/-- A question for a number from `low` on and below `high`, and the number that came out. -/
structure Drawn where
  low : Nat
  high : Nat
  value : Nat
deriving DecidableEq

namespace Draw

variable {α β : Type} {d : Draw α} {f : α → Draw β} {qs : List Drawn} {a : α} {low high n : Nat}

/-- `d` asks the questions `qs`, in this order and no others, and answered like this it ends
with `r`. -/
inductive Exchange : Draw α → List Drawn → Except DrawError α → Prop
  | done (a : α) : Exchange (done a) [] (.ok a)
  | fail (e : DrawError) : Exchange (fail e) [] (.error e)
  | ask {low high v : Nat} {h : low < high} {next : Nat → Draw α} {qs : List Drawn}
      {r : Except DrawError α} :
      low ≤ v → v < high → Exchange (next v) qs r →
      Exchange (ask low high h next) (⟨low, high, v⟩ :: qs) r

theorem Exchange.outcome {r : Except DrawError α} (h : d.Exchange qs r) :
    d.Outcome (qs.map Drawn.value) r := by
  induction h with
  | done a => exact .done a
  | fail e => exact .fail e
  | ask hlow hhigh _ ih => exact .ask hlow hhigh ih

theorem outcome_iff_exchange {vs : List Nat} {r : Except DrawError α} :
    d.Outcome vs r ↔ ∃ qs : List Drawn, qs.map Drawn.value = vs ∧ d.Exchange qs r := by
  constructor
  · intro h
    induction h with
    | done a => exact ⟨[], rfl, .done a⟩
    | fail e => exact ⟨[], rfl, .fail e⟩
    | ask hlow hhigh _ ih =>
      obtain ⟨qs, rfl, hrest⟩ := ih
      exact ⟨_ :: qs, rfl, .ask hlow hhigh hrest⟩
  · rintro ⟨qs, rfl, h⟩
    exact h.outcome

/-! ## One rule for each way to draw -/

theorem exchange_pure {r : Except DrawError α} :
    (pure a : Draw α).Exchange qs r ↔ qs = [] ∧ r = .ok a := by
  constructor
  · intro h
    cases h
    exact ⟨rfl, rfl⟩
  · rintro ⟨rfl, rfl⟩
    exact .done a

theorem exchange_fail {e : DrawError} {r : Except DrawError α} :
    (fail e : Draw α).Exchange qs r ↔ qs = [] ∧ r = .error e := by
  constructor
  · intro h
    cases h
    exact ⟨rfl, rfl⟩
  · rintro ⟨rfl, rfl⟩
    exact .fail e

/-- Two computations in a row: either the first one fails and nothing more is asked, or the
questions of the second one come after those of the first. -/
theorem exchange_bind {r : Except DrawError β} : (d >>= f).Exchange qs r ↔
    (∃ e, d.Exchange qs (.error e) ∧ r = .error e) ∨
      ∃ ps ts a, qs = ps ++ ts ∧ d.Exchange ps (.ok a) ∧ (f a).Exchange ts r := by
  show (d.bind f).Exchange qs r ↔ _
  induction d generalizing qs with
  | done a =>
    constructor
    · intro h
      exact .inr ⟨[], qs, a, rfl, .done a, h⟩
    · rintro (⟨e, ⟨⟩, -⟩ | ⟨ps, ts, a, rfl, ⟨⟩, h⟩)
      exact h
  | fail e =>
    constructor
    · intro h
      cases h
      exact .inl ⟨e, .fail e, rfl⟩
    · rintro (⟨e, ⟨⟩, rfl⟩ | ⟨ps, ts, a, rfl, ⟨⟩, -⟩)
      exact .fail e
  | ask low high hne next ih =>
    constructor
    · intro h
      cases h with
      | ask hlow hhigh h =>
        rcases (ih _).mp h with ⟨e, hfirst, rfl⟩ | ⟨ps, ts, a, rfl, hfirst, hrest⟩
        · exact .inl ⟨e, .ask hlow hhigh hfirst, rfl⟩
        · exact .inr ⟨_ :: ps, ts, a, rfl, .ask hlow hhigh hfirst, hrest⟩
    · rintro (⟨e, hfirst, rfl⟩ | ⟨ps, ts, a, rfl, hfirst, hrest⟩)
      · cases hfirst with
        | ask hlow hhigh hfirst => exact .ask hlow hhigh ((ih _).mpr (.inl ⟨e, hfirst, rfl⟩))
      · cases hfirst with
        | ask hlow hhigh hfirst =>
          exact .ask hlow hhigh ((ih _).mpr (.inr ⟨_, ts, a, rfl, hfirst, hrest⟩))

theorem exchange_inRange {r : Except DrawError Nat} : (inRange low high).Exchange qs r ↔
    (high ≤ low ∧ qs = [] ∧ r = .error .emptyRange) ∨
      ∃ v, low ≤ v ∧ v < high ∧ qs = [⟨low, high, v⟩] ∧ r = .ok v := by
  unfold inRange
  split
  next hlt =>
    constructor
    · intro h
      cases h with
      | ask hlow hhigh h =>
        cases h
        exact .inr ⟨_, hlow, hhigh, rfl, rfl⟩
    · rintro (⟨hle, -, -⟩ | ⟨v, hlow, hhigh, rfl, rfl⟩)
      · omega
      · exact .ask hlow hhigh (.done v)
  next hge =>
    rw [exchange_fail]
    constructor
    · intro h
      exact .inl ⟨Nat.le_of_not_lt hge, h⟩
    · rintro (⟨-, h⟩ | ⟨v, hlow, hhigh, -, -⟩)
      · exact h
      · omega

theorem exchange_inRange_bind {f : Nat → Draw β} {r : Except DrawError β} :
    (inRange low high >>= f).Exchange qs r ↔
      (high ≤ low ∧ qs = [] ∧ r = .error .emptyRange) ∨
        ∃ v ts, low ≤ v ∧ v < high ∧ qs = ⟨low, high, v⟩ :: ts ∧ (f v).Exchange ts r := by
  simp only [exchange_bind, exchange_inRange]
  constructor
  · rintro (⟨e, ⟨hle, rfl, he⟩ | ⟨v, -, -, -, he⟩, rfl⟩ |
      ⟨ps, ts, a, rfl, ⟨-, -, ha⟩ | ⟨v, hlow, hhigh, rfl, ha⟩, h⟩)
    · cases he
      exact .inl ⟨hle, rfl, rfl⟩
    · cases he
    · cases ha
    · cases ha
      exact .inr ⟨_, ts, hlow, hhigh, rfl, h⟩
  · rintro (⟨hle, rfl, rfl⟩ | ⟨v, ts, hlow, hhigh, rfl, h⟩)
    · exact .inl ⟨.emptyRange, .inl ⟨hle, rfl, rfl⟩, rfl⟩
    · exact .inr ⟨[_], ts, v, rfl, .inr ⟨v, hlow, hhigh, rfl, rfl⟩, h⟩

/-- Zero is the answer for the first of two branches, and all other answers are for the second. -/
theorem exchange_oneIn_ite {x y : Draw β} {r : Except DrawError β} (hn : 0 < n) :
    (oneIn n >>= fun isFirst => if isFirst = true then x else y).Exchange qs r ↔
      (∃ ts, qs = ⟨0, n, 0⟩ :: ts ∧ x.Exchange ts r) ∨
        ∃ v ts, v ≠ 0 ∧ v < n ∧ qs = ⟨0, n, v⟩ :: ts ∧ y.Exchange ts r := by
  rw [oneIn_bind_ite, exchange_inRange_bind]
  constructor
  · rintro (⟨hle, -, -⟩ | ⟨v, ts, -, hv, rfl, h⟩)
    · omega
    · by_cases hzero : v = 0
      · subst hzero
        exact .inl ⟨ts, rfl, h⟩
      · rw [if_neg (by simpa using hzero)] at h
        exact .inr ⟨v, ts, hzero, hv, rfl, h⟩
  · rintro (⟨ts, rfl, h⟩ | ⟨v, ts, hzero, hv, rfl, h⟩)
    · exact .inr ⟨0, ts, Nat.le_refl 0, hn, rfl, h⟩
    · refine .inr ⟨v, ts, Nat.zero_le v, hv, rfl, ?_⟩
      rwa [if_neg (by simpa using hzero)]

/-- The question is for a place in `l`, and `a` is at the place that came out. -/
structure Picks (l : List α) (q : Drawn) (a : α) : Prop where
  low_eq : q.low = 0
  high_eq : q.high = l.length
  getElem?_eq : l[q.value]? = some a

theorem Picks.mem {l : List α} {q : Drawn} (h : Picks l q a) : a ∈ l :=
  List.mem_of_getElem? h.getElem?_eq

theorem forall_mem_of_picks {l w : List α} (h : List.Forall₂ (Picks l) qs w) : ∀ a ∈ w, a ∈ l := by
  induction h with
  | nil => simp
  | cons hq _ ih => exact List.forall_mem_cons.mpr ⟨hq.mem, ih⟩

theorem exchange_pick {l : List α} {r : Except DrawError α} : (pick l).Exchange qs r ↔
    (l = [] ∧ qs = [] ∧ r = .error .nothingToPick) ∨
      ∃ q a, Picks l q a ∧ qs = [q] ∧ r = .ok a := by
  cases l with
  | nil =>
    rw [pick, exchange_fail]
    constructor
    · intro h
      exact .inl ⟨rfl, h⟩
    · rintro (⟨-, h⟩ | ⟨q, a, hq, -, -⟩)
      · exact h
      · cases hq.getElem?_eq
  | cons x rest =>
    simp only [pick, exchange_inRange_bind, exchange_pure]
    constructor
    · rintro (⟨hle, -, -⟩ | ⟨i, ts, -, hi, rfl, rfl, rfl⟩)
      · omega
      · have hi' : i < (x :: rest).length := hi
        refine .inr ⟨⟨0, rest.length + 1, i⟩, _, ⟨rfl, rfl, ?_⟩, rfl, rfl⟩
        rw [List.getD_eq_getElem?_getD, List.getElem?_eq_getElem hi', Option.getD_some]
    · rintro (⟨h, -, -⟩ | ⟨⟨low, high, i⟩, a, ⟨rfl, rfl, hi⟩, rfl, rfl⟩)
      · cases h
      · obtain ⟨hlt, -⟩ := List.getElem?_eq_some_iff.mp hi
        refine .inr ⟨i, [], Nat.zero_le i, hlt, rfl, rfl, ?_⟩
        rw [List.getD_eq_getElem?_getD, hi, Option.getD_some]

/-- One question for each of `n` computations, if each asks one and cannot fail. -/
theorem exchange_timesAfter {R : Drawn → α → Prop} {results : List α}
    {r : Except DrawError (List α)}
    (hd : ∀ qs r, d.Exchange qs r ↔ ∃ q a, R q a ∧ qs = [q] ∧ r = .ok a) :
    (d.timesAfter n results).Exchange qs r ↔
      ∃ l, l.length = n ∧ List.Forall₂ R qs l ∧ r = .ok (results.reverse ++ l) := by
  induction n generalizing qs results with
  | zero =>
    rw [timesAfter, exchange_pure]
    constructor
    · rintro ⟨rfl, rfl⟩
      exact ⟨[], rfl, .nil, by rw [List.append_nil]⟩
    · rintro ⟨l, hlength, hl, rfl⟩
      obtain rfl := List.length_eq_zero_iff.mp hlength
      cases hl
      exact ⟨rfl, by rw [List.append_nil]⟩
  | succ n ih =>
    simp only [timesAfter, exchange_bind, hd, ih]
    constructor
    · rintro (⟨e, ⟨q, a, -, -, he⟩, -⟩ | ⟨ps, ts, a, rfl, ⟨q, b, hq, rfl, ha⟩, l, hlength, hl, rfl⟩)
      · cases he
      · cases ha
        exact ⟨a :: l, congrArg Nat.succ hlength, .cons hq hl, by simp⟩
    · rintro ⟨l, hlength, hl, rfl⟩
      cases hl with
      | nil => cases hlength
      | cons hq hl =>
        exact .inr ⟨_, _, _, rfl, ⟨_, _, hq, rfl, rfl⟩, _, Nat.succ.inj hlength, hl, by simp⟩

/-- A member of `l` for each of `n` questions; only if there are no members, and some are wanted,
this fails, and nothing has been asked then. -/
theorem exchange_times_pick {l : List α} {r : Except DrawError (List α)} :
    (times n (pick l)).Exchange qs r ↔
      (l = [] ∧ 0 < n ∧ qs = [] ∧ r = .error .nothingToPick) ∨
        ∃ w, w.length = n ∧ List.Forall₂ (Picks l) qs w ∧ r = .ok w := by
  by_cases hl : l = []
  · subst hl
    cases n with
    | zero =>
      rw [times, timesAfter, exchange_pure]
      constructor
      · rintro ⟨rfl, rfl⟩
        exact .inr ⟨[], rfl, .nil, rfl⟩
      · rintro (⟨-, h, -⟩ | ⟨w, hlength, hw, rfl⟩)
        · omega
        · obtain rfl := List.length_eq_zero_iff.mp hlength
          cases hw
          exact ⟨rfl, rfl⟩
    | succ n =>
      show (fail .nothingToPick : Draw (List α)).Exchange qs r ↔ _
      rw [exchange_fail]
      constructor
      · intro h
        exact .inl ⟨rfl, Nat.succ_pos n, h⟩
      · rintro (⟨-, -, h⟩ | ⟨w, hlength, hw, -⟩)
        · exact h
        · cases hw with
          | nil => cases hlength
          | cons hq _ => cases hq.getElem?_eq
  · have hpick : ∀ qs r, (pick l).Exchange qs r ↔ ∃ q a, Picks l q a ∧ qs = [q] ∧ r = .ok a := by
      intro qs r
      rw [exchange_pick]
      exact or_iff_right fun h => hl h.1
    rw [times, exchange_timesAfter hpick]
    exact (or_iff_right fun h => hl h.1).symm

theorem exchange_collect {size : Nat} {r : Except DrawError (List α)} :
    (collect size n d).Exchange qs r ↔
      (bufferLimit < n * size ∧ qs = [] ∧ r = .error .capacityOverflow) ∨
        (n * size ≤ bufferLimit ∧ (times n d).Exchange qs r) := by
  rcases Nat.lt_or_ge bufferLimit (n * size) with hlong | hfits
  · rw [collect_of_lt hlong, exchange_fail]
    constructor
    · intro h
      exact .inl ⟨hlong, h⟩
    · rintro (⟨-, h⟩ | ⟨hfits, -⟩)
      · exact h
      · omega
  · rw [collect_of_le hfits]
    constructor
    · intro h
      exact .inr ⟨hfits, h⟩
    · rintro (⟨hlong, -⟩ | ⟨-, h⟩)
      · omega
      · exact h

end Draw
end PatternAutomata
