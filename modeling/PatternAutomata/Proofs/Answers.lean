import PatternAutomata.Draw.Basic
/-!
# Whatever is drawn

`Draw.Always d P` says that `d` cannot fail and that all its results satisfy `P`, whichever numbers
its questions are answered by, as long as each lies in its range. It goes through the computation
like a weakest precondition (`always_bind`), and it is what the outcomes of a computation have in
common (`always_iff`). A computation that asks a source ends with one of them
(`Source.outcome_run`).
-/
namespace PatternAutomata

namespace Draw

variable {α β : Type} {d : Draw α} {f : α → Draw β} {P Q : α → Prop} {low high n : Nat}

/-- Whatever the answers, `d` does not fail, and its result satisfies `P`. -/
def Always : Draw α → (α → Prop) → Prop
  | done a, P => P a
  | fail _, _ => False
  | ask low high _ next, P => ∀ v, low ≤ v → v < high → (next v).Always P

theorem Always.mono (h : d.Always P) (hPQ : ∀ a, P a → Q a) : d.Always Q := by
  induction d with
  | done a => exact hPQ a h
  | fail e => exact h
  | ask low high _ next ih =>
    intro v hlow hhigh
    exact ih v (h v hlow hhigh)

/-- **What all outcomes have in common.** -/
theorem always_iff : d.Always P ↔ ∀ vs r, d.Outcome vs r → ∃ a, r = .ok a ∧ P a := by
  induction d with
  | done a =>
    constructor
    · rintro h vs r ⟨⟩
      exact ⟨a, rfl, h⟩
    · intro h
      obtain ⟨b, hb, hP⟩ := h _ _ (.done a)
      cases hb
      exact hP
  | fail e =>
    constructor
    · intro h
      cases h
    · intro h
      obtain ⟨b, hb, -⟩ := h _ _ (.fail e)
      cases hb
  | ask low high hne next ih =>
    constructor
    · intro h vs r hr
      cases hr with
      | ask hlow hhigh hr => exact (ih _).mp (h _ hlow hhigh) _ _ hr
    · intro h v hlow hhigh
      exact (ih v).mpr fun vs r hr => h _ _ (.ask hlow hhigh hr)

/-! ## One rule for each way to draw -/

@[simp] theorem always_pure {a : α} : (pure a : Draw α).Always P ↔ P a := Iff.rfl

theorem always_bind {P : β → Prop} : (d >>= f).Always P ↔ d.Always fun a => (f a).Always P := by
  show (d.bind f).Always P ↔ _
  induction d with
  | done a => rfl
  | fail e => rfl
  | ask low high hne next ih =>
    simp only [bind, Always]
    exact forall_congr' fun v => imp_congr_right fun _ => imp_congr_right fun _ => ih v

theorem Always.bind {P : β → Prop} (h : d.Always Q) (hf : ∀ a, Q a → (f a).Always P) :
    (d >>= f).Always P :=
  always_bind.mpr (h.mono hf)

theorem always_inRange {P : Nat → Prop} (h : low < high) :
    (inRange low high).Always P ↔ ∀ v, low ≤ v → v < high → P v := by
  rw [inRange, dif_pos h]
  rfl

theorem always_oneIn (h : 0 < n) : (oneIn n).Always fun _ => True :=
  always_bind.mpr ((always_inRange h).mpr fun _ _ _ => trivial)

/-- Deciding between two branches is asking for the number that decides. -/
theorem oneIn_bind_ite {x y : Draw β} :
    (oneIn n >>= fun isFirst => if isFirst = true then x else y) =
      inRange 0 n >>= fun v => if (v == 0) = true then x else y := by
  unfold oneIn inRange
  split
  · rfl
  · rfl

theorem always_pick {l : List α} (h : l ≠ []) : (pick l).Always (· ∈ l) := by
  cases l with
  | nil => exact absurd rfl h
  | cons a rest =>
    refine always_bind.mpr ((always_inRange (Nat.succ_pos _)).mpr fun i _ hi => ?_)
    have hi' : i < (a :: rest).length := hi
    rw [always_pure, List.getD_eq_getElem?_getD, List.getElem?_eq_getElem hi', Option.getD_some]
    exact List.getElem_mem hi'

theorem Always.timesAfter (h : d.Always P) (n : Nat) {results : List α} (hr : ∀ a ∈ results, P a) :
    (d.timesAfter n results).Always fun l => l.length = results.length + n ∧ ∀ a ∈ l, P a := by
  induction n generalizing results with
  | zero => simpa [Draw.timesAfter] using hr
  | succ n ih =>
    refine h.bind fun a ha => ?_
    have hall : ∀ b ∈ a :: results, P b := by
      intro b hb
      rcases List.mem_cons.mp hb with rfl | hb
      · exact ha
      · exact hr b hb
    refine (ih hall).mono fun l hl => ⟨?_, hl.2⟩
    rw [hl.1, List.length_cons]
    omega

theorem Always.times (h : d.Always P) (n : Nat) :
    (Draw.times n d).Always fun l => l.length = n ∧ ∀ a ∈ l, P a := by
  have hall : (d.timesAfter n []).Always fun l => l.length = 0 + n ∧ ∀ a ∈ l, P a :=
    h.timesAfter n (by simp)
  rwa [Nat.zero_add] at hall

theorem collect_of_le {size : Nat} (h : n * size ≤ bufferLimit) : collect size n d = times n d :=
  if_neg (Nat.not_lt.mpr h)

theorem collect_of_lt {size : Nat} (h : bufferLimit < n * size) :
    collect size n d = fail .capacityOverflow :=
  if_pos h

/-! ## Sources of numbers -/

namespace Source

variable {σ : Type}

theorem run_ask {source : Source σ} {next : Nat → Draw α} {hne : low < high} {s s' : σ} {v : Nat}
    (h : source.answer low high s = (v, s')) :
    source.run (.ask low high hne next) s = source.run (next v) s' := by
  simp only [run, h]

/-- **A computation that asks a source ends**, and with one of its outcomes. -/
theorem outcome_run (source : Source σ) (d : Draw α) (s : σ) :
    ∃ vs, d.Outcome vs (source.run d s).1 := by
  induction d generalizing s with
  | done a => exact ⟨[], .done a⟩
  | fail e => exact ⟨[], .fail e⟩
  | ask low high hne next ih =>
    obtain ⟨hlow, hhigh⟩ := source.inRange hne s
    obtain ⟨vs, hvs⟩ := ih (source.answer low high s).1 (source.answer low high s).2
    exact ⟨_, .ask hlow hhigh hvs⟩

end Source
end Draw

end PatternAutomata
