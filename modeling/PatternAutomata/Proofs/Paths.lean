import Mathlib.Data.List.Induction
import PatternAutomata.Proofs.Reachability
/-!
# Paths of a nondeterministic automaton

A path follows edges and spells the symbols on them. The set that a run keeps after a word holds
exactly the states that a path for this word leads to (`mem_active`), so acceptance is a path to the
final state (`accepts_iff_path`).
-/
namespace PatternAutomata

open Relation (ReflTransGen)

/-- What following an edge labelled `l` spells. -/
def Label.word : Label → List Char
  | epsilon => []
  | symbol c => [c]

namespace Nfa

/-- A path from `q` along edges that spell a word; it ends in the last index. -/
inductive Path (a : Nfa) (q : Nat) : List Char → Nat → Prop
  | refl : Path a q [] q
  | step {w : List Char} {r s : Nat} {l : Label} :
      Path a q w r → a.Step r l s → Path a q (w ++ l.word) s

variable {a b : Nfa} {p q r : Nat} {u v w : List Char}

theorem Path.epsilon (h : a.Path p w q) (h' : a.Step q .epsilon r) : a.Path p w r := by
  simpa [Label.word] using h.step h'

theorem Path.trans (h : a.Path p u q) (h' : a.Path q v r) : a.Path p (u ++ v) r := by
  induction h' with
  | refl => simpa using h
  | step _ hs ih =>
    rw [← List.append_assoc]
    exact ih.step hs

theorem Path.of_epsilons (h : ReflTransGen (fun q r => a.Step q .epsilon r) q r) :
    a.Path q [] r := by
  induction h with
  | refl => exact .refl
  | tail _ hs ih => exact ih.epsilon hs

/-- A path moves along with the edges it follows. -/
theorem Path.shift {k : Nat} (hk : ∀ q l r, a.Step q l r → b.Step (q + k) l (r + k))
    (h : a.Path q w r) : b.Path (q + k) w (r + k) := by
  induction h with
  | refl => exact .refl
  | step _ hs ih => exact ih.step (hk _ _ _ hs)

/-- The moved path, after an edge from state 0 to its beginning. -/
theorem Path.entered {k : Nat} (hk : ∀ q l r, a.Step q l r → b.Step (q + k) l (r + k))
    (hentry : b.Step 0 .epsilon k) (h : a.Path 0 w r) : b.Path 0 w (r + k) := by
  have hmoved := h.shift hk
  rw [Nat.zero_add] at hmoved
  exact (Path.refl.epsilon hentry).trans hmoved

/-! ## The set that a run keeps -/

@[simp] theorem active_nil : a.active [] = a.startSet := rfl

@[simp] theorem active_concat {c : Char} : a.active (w ++ [c]) = a.advance (a.active w) c := by
  simp [active]

theorem active_eq_closure : ∃ s, a.active w = a.closure s := by
  induction w using List.reverseRecOn with
  | nil => exact ⟨_, rfl⟩
  | append_singleton w c _ => exact ⟨_, active_concat⟩

theorem active_epsilon (ha : a.Closed) (hq : q ∈ a.active w) (h : a.Step q .epsilon r) :
    r ∈ a.active w := by
  obtain ⟨s, hs⟩ := a.active_eq_closure (w := w)
  rw [hs, mem_closure ha] at hq ⊢
  obtain ⟨p, hp, hpq⟩ := hq
  exact ⟨p, hp, hpq.tail h⟩

theorem active_symbol {c : Char} (ha : a.Closed) (hq : q ∈ a.active w)
    (h : a.Step q (.symbol c) r) : r ∈ a.active (w ++ [c]) := by
  have hr : r ∈ a.moveOn (a.active w) c := mem_moveOn.mpr ⟨q, hq, h⟩
  rw [active_concat]
  exact (mem_closure ha).mpr ⟨r, hr, .refl⟩

theorem path_of_mem_active (ha : a.Closed) (h : q ∈ a.active w) : a.Path a.initial w q := by
  induction w using List.reverseRecOn generalizing q with
  | nil =>
    obtain ⟨p, hp, hpq⟩ := (mem_closure ha).mp h
    obtain rfl : p = a.initial := by simpa using hp
    exact .of_epsilons hpq
  | append_singleton w c ih =>
    rw [active_concat] at h
    obtain ⟨p, hp, hpq⟩ := (mem_closure ha).mp h
    obtain ⟨o, ho, hop⟩ := mem_moveOn.mp hp
    have hcp : a.Path a.initial (w ++ [c]) p := (ih ho).step hop
    simpa using hcp.trans (.of_epsilons hpq)

theorem mem_active_of_path (ha : a.Closed) (h : a.Path a.initial w q) : q ∈ a.active w := by
  induction h with
  | refl => exact (mem_closure ha).mpr ⟨a.initial, by simp, .refl⟩
  | @step w r s l _ hs ih =>
    cases l with
    | epsilon =>
      rw [Label.word, List.append_nil]
      exact active_epsilon ha ih hs
    | symbol c => exact active_symbol ha ih hs

/-- **A run keeps exactly the states that paths lead to.** -/
theorem mem_active (ha : a.Closed) : q ∈ a.active w ↔ a.Path a.initial w q :=
  ⟨path_of_mem_active ha, mem_active_of_path ha⟩

theorem accepts_iff_path (ha : a.Closed) :
    a.accepts w = true ↔ a.Path a.initial w a.final := by
  rw [accepts, decide_eq_true_eq, mem_active ha]

end Nfa
end PatternAutomata
