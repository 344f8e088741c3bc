import PatternAutomata.Proofs.Exchanges
import PatternAutomata.Proofs.GeneratorOrbit
/-!
# The draws that a generator spends

A generator in an odd state answers each question by throwing raw numbers away until one is kept
(`Pcg.Answers`). So it takes every computation through one of its exchanges, and the state that is
left depends on nothing but the questions asked (`Pcg.IsOdd.exists_spends`).
-/
namespace PatternAutomata.Pcg

open Draw

variable {α : Type} {g g' : Pcg} {d : Draw α} {qs : List Drawn} {r : Except DrawError α}

/-- `g` answers the questions `qs` one after the other, and `g'` is left. For each of them fewer raw
numbers than a period has are thrown away, and the next one is kept. -/
inductive Answers : Pcg → List Drawn → Pcg → Prop
  | nil (g : Pcg) : Answers g [] g
  | cons {g g' : Pcg} {low high n : Nat} {qs : List Drawn} :
      low < high → n < period → g.SettlesAfter (high - low) n → Answers (step^[n + 1] g) qs g' →
      Answers g (⟨low, high, low + scale (high - low) (g.raw n)⟩ :: qs) g'

/-- `g` takes `d` to the end `r` by exactly the bounded draws `qs`, and `g'` is left. -/
structure Spends (g : Pcg) (d : Draw α) (qs : List Drawn) (r : Except DrawError α) (g' : Pcg) :
    Prop where
  run_eq : g.run d = (r, g')
  asked : d.Exchange qs r
  answered : g.Answers qs g'

theorem spends_of_answers (hd : d.Exchange qs r) (hg : g.Answers qs g') :
    g.Spends d qs r g' := by
  refine ⟨?_, hd, hg⟩
  induction hd generalizing g with
  | done a =>
    cases hg
    rfl
  | fail e =>
    cases hg
    rfl
  | @ask low high v hne next qs r hlow hhigh hd ih =>
    cases hg with
    | cons _ hn hsettles hrest =>
      rw [run_ask hne (below_eq hsettles hn)]
      exact ih hrest

/-- **A generator in an odd state takes every computation through one of its exchanges.** -/
theorem IsOdd.exists_spends (h : g.IsOdd) (d : Draw α) : ∃ qs r g', g.Spends d qs r g' := by
  suffices hex : ∃ qs r g', d.Exchange qs r ∧ g.Answers qs g' by
    obtain ⟨qs, r, g', hd, hg⟩ := hex
    exact ⟨qs, r, g', spends_of_answers hd hg⟩
  induction d generalizing g with
  | done a => exact ⟨[], _, g, .done a, .nil g⟩
  | fail e => exact ⟨[], _, g, .fail e, .nil g⟩
  | ask low high hne next ih =>
    obtain ⟨n, hn, hsettles⟩ := h.exists_settlesAfter (high - low)
    have hscale : scale (high - low) (g.raw n) < high - low :=
      scale_lt_of_lt (Nat.sub_pos_of_lt hne) (raw_lt g n)
    have hhigh : low + scale (high - low) (g.raw n) < high := by omega
    obtain ⟨qs, r, g', hd, hg⟩ := ih _ (h.iterate (n + 1))
    exact ⟨_, r, g', .ask (Nat.le_add_right _ _) hhigh hd, .cons hne hn hsettles hg⟩

/-- The questions may be cut anywhere; the state in between is where the first of them lead. -/
theorem answers_append {ps ts : List Drawn} (h : g.Answers (ps ++ ts) g') :
    ∃ g₁, g.Answers ps g₁ ∧ g₁.Answers ts g' := by
  induction ps generalizing g with
  | nil => exact ⟨g, .nil g, h⟩
  | cons q ps ih =>
    cases h with
    | cons hlt hn hsettles hrest =>
      obtain ⟨g₁, hfirst, hsecond⟩ := ih hrest
      exact ⟨g₁, .cons hlt hn hsettles hfirst, hsecond⟩

end PatternAutomata.Pcg
