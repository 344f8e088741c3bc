import PatternAutomata.Proofs.Exchanges
/-!
# Which answers lead to which result

A computation that ends well has used up its answers in the order of its questions: those of its
first part come before those of the rest (`outcome_bind_ok`). Each way to draw has its equation.

`Draw.CanGive d a` leaves the answers out: some of them lead `d` to the result `a`. Where
`Draw.Always` speaks of all results, this speaks of each.

For a computation that may fail there are `Draw.Fails`, if it does whatever the answers are, and
`Draw.Barring`, if it does only after an answer of some kind.
-/
namespace PatternAutomata.Draw

variable {α β : Type} {d : Draw α} {f : α → Draw β} {vs : List Nat} {a : α} {b : β}
  {low high n v : Nat}

/-! ## The answers of a result -/

theorem outcome_pure_ok {x : α} : (pure x : Draw α).Outcome vs (.ok a) ↔ vs = [] ∧ a = x := by
  constructor
  · intro h
    cases h
    exact ⟨rfl, rfl⟩
  · rintro ⟨rfl, rfl⟩
    exact .done a

/-- Two computations in a row: either the first one fails and nothing more is answered, or the
answers of the second one come after those of the first. -/
theorem outcome_bind {r : Except DrawError β} : (d >>= f).Outcome vs r ↔
    (∃ e, d.Outcome vs (.error e) ∧ r = .error e) ∨
      ∃ us ws a, vs = us ++ ws ∧ d.Outcome us (.ok a) ∧ (f a).Outcome ws r := by
  simp only [outcome_iff_exchange, exchange_bind]
  constructor
  · rintro ⟨_, rfl, ⟨e, h, rfl⟩ | ⟨ps, ts, a, rfl, hfirst, hrest⟩⟩
    · exact .inl ⟨e, ⟨_, rfl, h⟩, rfl⟩
    · exact .inr ⟨_, _, a, List.map_append, ⟨ps, rfl, hfirst⟩, ts, rfl, hrest⟩
  · rintro (⟨e, ⟨qs, rfl, h⟩, rfl⟩ | ⟨_, _, a, rfl, ⟨ps, rfl, hfirst⟩, ts, rfl, hrest⟩)
    · exact ⟨qs, rfl, .inl ⟨e, h, rfl⟩⟩
    · exact ⟨ps ++ ts, List.map_append, .inr ⟨ps, ts, a, rfl, hfirst, hrest⟩⟩

theorem outcome_bind_ok : (d >>= f).Outcome vs (.ok b) ↔
    ∃ us ws a, vs = us ++ ws ∧ d.Outcome us (.ok a) ∧ (f a).Outcome ws (.ok b) := by
  rw [outcome_bind]
  refine or_iff_right ?_
  rintro ⟨e, -, h⟩
  cases h

theorem outcome_bind_pure_ok {f : α → β} :
    (d >>= fun a => pure (f a)).Outcome vs (.ok b) ↔ ∃ a, d.Outcome vs (.ok a) ∧ b = f a := by
  simp only [outcome_bind_ok, outcome_pure_ok]
  constructor
  · rintro ⟨us, _, a, rfl, h, rfl, rfl⟩
    rw [List.append_nil]
    exact ⟨a, h, rfl⟩
  · rintro ⟨a, h, rfl⟩
    exact ⟨vs, [], a, (List.append_nil vs).symm, h, rfl, rfl⟩

theorem outcome_inRange_ok :
    (inRange low high).Outcome vs (.ok v) ↔ vs = [v] ∧ low ≤ v ∧ v < high := by
  simp only [outcome_iff_exchange, exchange_inRange]
  constructor
  · rintro ⟨_, rfl, ⟨-, -, ⟨⟩⟩ | ⟨v, hlow, hhigh, rfl, ⟨⟩⟩⟩
    exact ⟨rfl, hlow, hhigh⟩
  · rintro ⟨rfl, hlow, hhigh⟩
    exact ⟨[⟨low, high, v⟩], rfl, .inr ⟨v, hlow, hhigh, rfl, rfl⟩⟩

theorem outcome_inRange_bind {f : Nat → Draw β} : (inRange low high >>= f).Outcome vs (.ok b) ↔
    ∃ v us, vs = v :: us ∧ low ≤ v ∧ v < high ∧ (f v).Outcome us (.ok b) := by
  simp only [outcome_bind_ok, outcome_inRange_ok]
  constructor
  · rintro ⟨_, us, v, rfl, ⟨rfl, hlow, hhigh⟩, h⟩
    exact ⟨v, us, rfl, hlow, hhigh, h⟩
  · rintro ⟨v, us, rfl, hlow, hhigh, h⟩
    exact ⟨[v], us, v, rfl, ⟨rfl, hlow, hhigh⟩, h⟩

/-- Zero is the answer for the first of two branches, and all other answers are for the second. -/
theorem outcome_oneIn_ite {x y : Draw β} :
    (oneIn n >>= fun isFirst => if isFirst = true then x else y).Outcome vs (.ok b) ↔
      (∃ us, vs = 0 :: us ∧ 0 < n ∧ x.Outcome us (.ok b)) ∨
      ∃ v us, vs = v :: us ∧ v ≠ 0 ∧ v < n ∧ y.Outcome us (.ok b) := by
  rw [oneIn_bind_ite, outcome_inRange_bind]
  constructor
  · rintro ⟨v, us, rfl, -, hv, h⟩
    by_cases hzero : v = 0
    · subst hzero
      exact .inl ⟨us, rfl, hv, h⟩
    · rw [if_neg (by simpa using hzero)] at h
      exact .inr ⟨v, us, rfl, hzero, hv, h⟩
  · rintro (⟨us, rfl, hn, h⟩ | ⟨v, us, rfl, hzero, hv, h⟩)
    · exact ⟨0, us, rfl, Nat.le_refl 0, hn, h⟩
    · refine ⟨v, us, rfl, Nat.zero_le v, hv, ?_⟩
      rwa [if_neg (by simpa using hzero)]

theorem outcome_pick_ok {l : List α} :
    (pick l).Outcome vs (.ok a) ↔ ∃ i, vs = [i] ∧ l[i]? = some a := by
  simp only [outcome_iff_exchange, exchange_pick]
  constructor
  · rintro ⟨_, rfl, ⟨-, -, ⟨⟩⟩ | ⟨q, a, hq, rfl, ⟨⟩⟩⟩
    exact ⟨q.value, rfl, hq.getElem?_eq⟩
  · rintro ⟨i, rfl, hi⟩
    exact ⟨[⟨0, l.length, i⟩], rfl, .inr ⟨_, a, ⟨rfl, rfl, hi⟩, rfl, rfl⟩⟩

/-! ## The results that can come out -/

/-- Some answers lead `d` to the result `a`. -/
def CanGive (d : Draw α) (a : α) : Prop := ∃ vs, d.Outcome vs (.ok a)

theorem canGive_pure {x : α} : (pure x : Draw α).CanGive a ↔ a = x := by
  simp [CanGive, outcome_pure_ok]

theorem canGive_bind : (d >>= f).CanGive b ↔ ∃ a, d.CanGive a ∧ (f a).CanGive b := by
  simp only [CanGive, outcome_bind_ok]
  constructor
  · rintro ⟨_, us, ws, a, rfl, hfirst, hrest⟩
    exact ⟨a, ⟨us, hfirst⟩, ws, hrest⟩
  · rintro ⟨a, ⟨us, hfirst⟩, ws, hrest⟩
    exact ⟨us ++ ws, us, ws, a, rfl, hfirst, hrest⟩

theorem canGive_inRange : (inRange low high).CanGive v ↔ low ≤ v ∧ v < high := by
  simp [CanGive, outcome_inRange_ok]

/-- A question with two answers or more can be decided either way. -/
theorem canGive_oneIn (h : 1 < n) (x : Bool) : (oneIn n).CanGive x := by
  refine canGive_bind.mpr ?_
  cases x with
  | true => exact ⟨0, canGive_inRange.mpr ⟨Nat.le_refl 0, Nat.zero_lt_of_lt h⟩, canGive_pure.mpr rfl⟩
  | false => exact ⟨1, canGive_inRange.mpr ⟨Nat.zero_le 1, h⟩, canGive_pure.mpr rfl⟩

theorem canGive_timesAfter {results l : List α} : (d.timesAfter n results).CanGive l ↔
    ∃ more : List α, l = results.reverse ++ more ∧ more.length = n ∧ ∀ a ∈ more, d.CanGive a := by
  induction n generalizing results with
  | zero =>
    rw [timesAfter, canGive_pure]
    constructor
    · rintro rfl
      exact ⟨[], by simp, rfl, by simp⟩
    · rintro ⟨more, rfl, hlength, -⟩
      rw [List.length_eq_zero_iff.mp hlength, List.append_nil]
  | succ n ih =>
    simp only [timesAfter, canGive_bind, ih]
    constructor
    · rintro ⟨a, ha, more, rfl, rfl, hmore⟩
      refine ⟨a :: more, by simp, rfl, ?_⟩
      exact List.forall_mem_cons.mpr ⟨ha, hmore⟩
    · rintro ⟨more, rfl, hlength, hmore⟩
      obtain ⟨a, more, rfl⟩ := List.exists_cons_of_length_eq_add_one hlength
      obtain ⟨ha, hmore⟩ := List.forall_mem_cons.mp hmore
      exact ⟨a, ha, more, by simp, Nat.succ.inj hlength, hmore⟩

theorem canGive_times {l : List α} :
    (times n d).CanGive l ↔ l.length = n ∧ ∀ a ∈ l, d.CanGive a := by
  rw [times, canGive_timesAfter]
  constructor
  · rintro ⟨more, rfl, hlength, hmore⟩
    exact ⟨hlength, hmore⟩
  · rintro ⟨hlength, hmore⟩
    exact ⟨l, rfl, hlength, hmore⟩

/-! ## Failing in one way only -/

/-- Whatever the answers, `d` fails with `e`. -/
def Fails (d : Draw α) (e : DrawError) : Prop := ∀ vs r, d.Outcome vs r → r = .error e

/-- Whatever the answers, the result of `d` satisfies `P`, or `d` fails with `e` and its last answer
is `Bad`. -/
def Barring (Bad : Nat → Prop) (e : DrawError) (d : Draw α) (P : α → Prop) : Prop :=
  ∀ vs r, d.Outcome vs r →
    (∃ a, r = .ok a ∧ P a) ∨ (r = .error e ∧ ∃ us v, vs = us ++ [v] ∧ Bad v)

variable {e : DrawError} {Bad : Nat → Prop} {P Q : α → Prop}

theorem fails_fail : (fail e : Draw α).Fails e := by
  intro vs r hr
  cases hr
  rfl

theorem Fails.bind (h : d.Fails e) : (d >>= f).Fails e := by
  intro vs r hr
  rcases outcome_bind.mp hr with ⟨e', hfirst, rfl⟩ | ⟨us, ws, a, -, hfirst, -⟩
  · cases h _ _ hfirst
    rfl
  · cases h _ _ hfirst

theorem Always.bind_fails (h : d.Always P) (hf : ∀ a, P a → (f a).Fails e) : (d >>= f).Fails e := by
  intro vs r hr
  rcases outcome_bind.mp hr with ⟨e', hfirst, -⟩ | ⟨us, ws, a, -, hfirst, hrest⟩
  · obtain ⟨a, ha, -⟩ := always_iff.mp h _ _ hfirst
    cases ha
  · obtain ⟨a, ⟨⟩, ha⟩ := always_iff.mp h _ _ hfirst
    exact hf a ha _ _ hrest

theorem barring_pure (h : P a) : (pure a : Draw α).Barring Bad e P := by
  rintro vs r ⟨⟩
  exact .inl ⟨a, rfl, h⟩

theorem Always.barring (h : d.Always P) : d.Barring Bad e P :=
  fun vs r hr => .inl (always_iff.mp h vs r hr)

theorem Barring.mono {Bad' : Nat → Prop} (h : d.Barring Bad e P) (hBad : ∀ v, Bad v → Bad' v)
    (hPQ : ∀ a, P a → Q a) : d.Barring Bad' e Q := by
  intro vs r hr
  rcases h vs r hr with ⟨a, rfl, ha⟩ | ⟨rfl, us, v, rfl, hv⟩
  · exact .inl ⟨a, rfl, hPQ a ha⟩
  · exact .inr ⟨rfl, us, v, rfl, hBad v hv⟩

theorem Barring.bind {P : β → Prop} (h : d.Barring Bad e Q)
    (hf : ∀ a, Q a → (f a).Barring Bad e P) : (d >>= f).Barring Bad e P := by
  intro vs r hr
  rcases outcome_bind.mp hr with ⟨e', hfirst, rfl⟩ | ⟨us, ws, a, rfl, hfirst, hrest⟩
  · rcases h _ _ hfirst with ⟨a, ⟨⟩, -⟩ | ⟨⟨⟩, hlast⟩
    exact .inr ⟨rfl, hlast⟩
  · rcases h _ _ hfirst with ⟨a, ⟨⟩, ha⟩ | ⟨⟨⟩, -⟩
    rcases hf a ha _ _ hrest with hok | ⟨rfl, ts, v, rfl, hv⟩
    · exact .inl hok
    · exact .inr ⟨rfl, us ++ ts, v, (List.append_assoc us ts [v]).symm, hv⟩

/-- After a bad answer the rest may fail, and after every other one it must go on. -/
theorem barring_inRange_bind {P : β → Prop} {f : Nat → Draw β} (h : low < high)
    (hf : ∀ v, low ≤ v → v < high → (Bad v ∧ f v = fail e) ∨ (f v).Barring Bad e P) :
    (inRange low high >>= f).Barring Bad e P := by
  intro vs r hr
  rcases outcome_bind.mp hr with ⟨e', hfirst, -⟩ | ⟨us, ws, v, rfl, hfirst, hrest⟩
  · rw [inRange, dif_pos h] at hfirst
    cases hfirst with
    | ask _ _ hdone => cases hdone
  · obtain ⟨rfl, hlow, hhigh⟩ := outcome_inRange_ok.mp hfirst
    rcases hf v hlow hhigh with ⟨hv, hfail⟩ | hgood
    · rw [hfail] at hrest
      cases hrest
      exact .inr ⟨rfl, [], v, rfl, hv⟩
    · rcases hgood _ _ hrest with hok | ⟨rfl, ts, u, rfl, hu⟩
      · exact .inl hok
      · exact .inr ⟨rfl, v :: ts, u, rfl, hu⟩

end PatternAutomata.Draw
