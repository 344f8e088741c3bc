/-!
# Counting

What a search has left to find is counted by the members of a list that satisfy a predicate; the
count goes down when the predicate becomes stronger.
-/
namespace PatternAutomata

/-- Fewer members of a list satisfy `p` than satisfy `q`, if `p` implies `q` there and one member
satisfies `q` alone. -/
theorem countP_lt_countP {α : Type} {p q : α → Bool} {l : List α} {a : α}
    (h : ∀ x ∈ l, p x = true → q x = true) (ha : a ∈ l) (hq : q a = true) (hp : p a = false) :
    l.countP p < l.countP q := by
  induction l with
  | nil => simp at ha
  | cons b l ih =>
    have hle : l.countP p ≤ l.countP q :=
      List.countP_mono_left fun x hx => h x (List.mem_cons_of_mem _ hx)
    rcases List.mem_cons.mp ha with rfl | ha
    · simp only [List.countP_cons, hp, hq]
      simpa using Nat.lt_succ_of_le hle
    · have hb : (if p b = true then 1 else 0) ≤ (if q b = true then 1 else 0) := by
        by_cases hpb : p b = true
        · simp [hpb, h b (by simp) hpb]
        · simp [hpb]
      simp only [List.countP_cons]
      exact Nat.add_lt_add_of_lt_of_le (ih (fun x hx => h x (List.mem_cons_of_mem _ hx)) ha) hb

end PatternAutomata
