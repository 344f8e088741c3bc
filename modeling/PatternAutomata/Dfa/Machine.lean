import PatternAutomata.Count
import PatternAutomata.Dfa.Basic
/-!
# Numbering the states of a machine

A `Machine` is a deterministic automaton whose states are values of any type. Numbering visits the
states that can be reached and turns it into a `Dfa`: the start is state 0, and each further state
has the next free number when it is first seen. Visited states wait on a stack until their own
successors are looked at, and symbols are taken in ascending order; the numbers depend on nothing
else.
-/
namespace PatternAutomata

structure Machine (σ : Type) where
  start : σ
  /-- The symbols that may lead on. -/
  symbols : SymbolSet
  next : σ → Char → Option σ
  accepts : σ → Bool
  /-- Only finitely many states can be entered. -/
  finite : ∃ all : List σ, ∀ s c t, next s c = some t → t ∈ all

namespace Machine

variable {σ : Type}

/-- The states entered from `s`, one symbol after the other. -/
def successors (m : Machine σ) (s : σ) : List σ := m.symbols.toList.filterMap (m.next s)

/-- A list that holds every state that can be entered. -/
noncomputable def enterable (m : Machine σ) : List σ := m.finite.choose

theorem mem_enterable {m : Machine σ} {s t : σ} (h : t ∈ m.successors s) : t ∈ m.enterable := by
  obtain ⟨c, -, hc⟩ := List.mem_filterMap.mp h
  exact m.finite.choose_spec s c t hc

variable [DecidableEq σ]

/-- The members of a list that are not among `known`, each once, in the order of their first
occurrence. -/
def unknown (known : List σ) : List σ → List σ
  | [] => []
  | s :: rest =>
    if s ∈ known then unknown known rest else s :: unknown (known ++ [s]) rest

theorem mem_unknown {known l : List σ} {s : σ} : s ∈ unknown known l ↔ s ∈ l ∧ s ∉ known := by
  induction l generalizing known with
  | nil => simp [unknown]
  | cons a l ih => by_cases ha : a ∈ known <;> grind [unknown]

/-- The states of which `known` are known and `stack` still have to be followed, in the order in
which they are first seen. -/
def discoverFrom (m : Machine σ) (known stack : List σ) : List σ :=
  match stack with
  | [] => known
  | s :: rest =>
    let new := unknown known (m.successors s)
    if new.isEmpty then m.discoverFrom known rest
    else m.discoverFrom (known ++ new) (new.reverse ++ rest)
termination_by (m.enterable.countP (fun s => decide (s ∉ known)), stack.length)
decreasing_by
  · exact Prod.Lex.right _ (by simp)
  · next hnew =>
    refine Prod.Lex.left _ _ ?_
    obtain ⟨t, ht⟩ := List.exists_mem_of_ne_nil _ (by simpa using hnew)
    obtain ⟨hs, hk⟩ := mem_unknown.mp ht
    refine countP_lt_countP (a := t) (fun x _ hx => ?_) (mem_enterable hs) (by simpa using hk) ?_
    · simp only [List.mem_append, not_or, decide_eq_true_eq] at hx ⊢
      exact hx.1
    · simpa using fun _ => (ht : t ∈ unknown known (m.successors s))

/-- The states that can be reached, the start first, in the order of their numbers. -/
def discover (m : Machine σ) : List σ := m.discoverFrom [m.start] [m.start]

/-- The state `s` when the states are numbered by their places in `known`. -/
def describe (m : Machine σ) (known : List σ) (s : σ) : DfaState where
  accepting := m.accepts s
  moves := m.symbols.toList.filterMap fun c => (m.next s c).map fun t => (c, known.idxOf t)

/-- The machine with its states numbered. -/
def toDfa (m : Machine σ) : Dfa :=
  let known := m.discover
  ⟨0, known.map (m.describe known)⟩

end Machine
end PatternAutomata
