import PatternAutomata.CommandLine.Fuzzer
import PatternAutomata.Proofs.Assembly
import PatternAutomata.Proofs.CompileLanguage
import PatternAutomata.Proofs.EndPositions
import PatternAutomata.Proofs.RandomPatterns
import PatternAutomata.Proofs.RandomWords
/-!
# The fuzzer finds no defect

All three matchers decide the language of the tree, so no input shows a defect (`check_ofTree`).
Whatever is drawn, no trial therefore ends with one. What stops it is a buffer that would have to be
too long, for its list of witnesses (`fails_trial`) or for one of its inputs (`barring_trial`). From
one trial this passes to all of them together (`outcome_trials`), and what the program prints
depends on nothing else (`fuzzer_reports_no_failure`).
-/
namespace PatternAutomata.Fuzzer

/-! ## Three matchers, one verdict -/

section
variable (t : Tree) (w : List Char)

theorem accepts_eq_isMatch : (Nfa.ofTree t).accepts w = t.isMatch w := by
  rw [Bool.eq_iff_iff, Nfa.accepts_ofTree, Tree.isMatch_iff]

theorem dfa_isMatch_eq_isMatch : (Dfa.ofTree t).isMatch w = t.isMatch w := by
  rw [Bool.eq_iff_iff, Dfa.isMatch, decide_eq_true_eq, Dfa.simulate_ofTree, Tree.isMatch_iff]

theorem check_ofTree (pattern : List Char) : (Subject.ofTree pattern t).check w = none :=
  if_pos ⟨accepts_eq_isMatch t w, dfa_isMatch_eq_isMatch t w⟩

end

/-! ## Trials -/

/-- The witnesses for one pattern do not take more bytes than a buffer can be given. -/
def Settings.WitnessesFit (s : Settings) : Prop :=
  s.inputsPerPattern / 2 * wordHeaderSize ≤ bufferLimit

theorem Settings.witnessesFit_iff {s : Settings} :
    s.WitnessesFit ↔ s.inputsPerPattern ≤ 768614336404564651 := by
  have hlimit : bufferLimit = 9223372036854775807 := by decide
  unfold WitnessesFit wordHeaderSize
  rw [hlimit]
  omega

/-- A length that an input may have, but no buffer. -/
structure Settings.Overlong (s : Settings) (n : Nat) : Prop where
  bufferLimit_lt : bufferLimit < n
  le_maxInputLength : n ≤ s.maxInputLength

theorem areLiterals_patternLiterals : areLiterals patternLiterals = true := by decide

section
variable {Bad : Nat → Prop} {e : DrawError}

theorem barring_checkInputs {s : Subject} (hs : ∀ w, s.check w = none) {input : Draw (List Char)}
    (hinput : input.Barring Bad e fun _ => True) (n : Nat) :
    (s.checkInputs input n).Barring Bad e (· = none) := by
  induction n with
  | zero => exact Draw.barring_pure rfl
  | succ n ih =>
    rw [Subject.checkInputs]
    refine hinput.bind fun w _ => ?_
    rw [hs w]
    exact ih

end

section
variable {settings : Settings}

/-- Without room for the witnesses, a trial fails as soon as its pattern is there. -/
theorem fails_trial (hfit : ¬ settings.WitnessesFit) :
    (trial settings).Fails .capacityOverflow := by
  have hlong : bufferLimit < settings.inputsPerPattern / 2 * wordHeaderSize := Nat.not_le.mp hfit
  have hpattern := always_drawPattern areLiterals_patternLiterals settings.maxDepth
  refine hpattern.bind_fails fun phrase hphrase => ?_
  rw [hphrase]
  refine Draw.Fails.bind ?_
  rw [Draw.collect_of_lt hlong]
  exact Draw.fails_fail

theorem fails_trials (hfit : ¬ settings.WitnessesFit) {n : Nat} (hn : 0 < n) :
    (trials settings n).Fails .capacityOverflow := by
  cases n with
  | zero => omega
  | succ n => exact (fails_trial hfit).bind

section
variable (h : settings.maxInputLength < wordBound - 1) (hfit : settings.WitnessesFit)
include h hfit

/-- A trial ends without a defect, unless the length of an input turns out too long. -/
theorem barring_trial :
    (trial settings).Barring settings.Overlong .capacityOverflow (· = none) := by
  have hlength : ¬ wordBound ≤ settings.maxInputLength + 1 := by omega
  have hcharset : inputCharset ≠ [] := by decide
  have hpattern := always_drawPattern areLiterals_patternLiterals settings.maxDepth
  refine hpattern.barring.bind fun phrase hphrase => ?_
  rw [hphrase]
  dsimp only
  rw [Draw.collect_of_le hfit]
  refine (phrase.tree.always_witness.times _).barring.bind fun witnesses _ => ?_
  rw [if_neg hlength]
  refine barring_checkInputs (fun w => check_ofTree _ w _) ?_ _
  refine (WordRange.barring_mixed (Nat.succ_pos _) hcharset witnesses).mono ?_ fun _ _ => trivial
  exact fun n hn => ⟨hn.bufferLimit_lt, Nat.le_of_lt_succ hn.lt_high⟩

theorem barring_trials (n : Nat) :
    (trials settings n).Barring settings.Overlong .capacityOverflow (· = none) := by
  induction n with
  | zero => exact Draw.barring_pure rfl
  | succ n ih =>
    rw [trials]
    refine (barring_trial h hfit).bind fun defect hdefect => ?_
    rw [hdefect]
    exact ih

end

/-! ## The whole run -/

/-- The trials show no defect. They may fail, but only for want of a long enough buffer: for the
witnesses of the first pattern, or for an input whose length was the last number drawn. -/
theorem outcome_trials (h : settings.maxInputLength < wordBound - 1) {n : Nat} {vs : List Nat}
    {r : Except DrawError (Option Defect)} (hr : (trials settings n).Outcome vs r) :
    r = .ok none ∨ (r = .error .capacityOverflow ∧ 0 < n ∧
      (¬ settings.WitnessesFit ∨ ∃ us v, vs = us ++ [v] ∧ settings.Overlong v)) := by
  rcases Nat.eq_zero_or_pos n with rfl | hn
  · cases hr
    exact .inl rfl
  · by_cases hfit : settings.WitnessesFit
    · rcases barring_trials h hfit n vs r hr with ⟨_, rfl, rfl⟩ | ⟨rfl, hlast⟩
      · exact .inl rfl
      · exact .inr ⟨rfl, hn, .inr hlast⟩
    · exact .inr ⟨fails_trials hfit hn vs r hr, hn, .inl hfit⟩

/-- With buffers long enough for the witnesses and for every input, nothing can fail. -/
theorem outcome_trials_of_fit (h : settings.maxInputLength < wordBound - 1)
    (hfit : settings.WitnessesFit) (hlength : settings.maxInputLength ≤ bufferLimit) {n : Nat}
    {vs : List Nat} {r : Except DrawError (Option Defect)}
    (hr : (trials settings n).Outcome vs r) : r = .ok none := by
  rcases outcome_trials h hr with hok | ⟨-, -, hnofit | ⟨us, v, -, hv⟩⟩
  · exact hok
  · exact absurd hfit hnofit
  · have hlong : bufferLimit < settings.maxInputLength :=
      Nat.lt_of_lt_of_le hv.bufferLimit_lt hv.le_maxInputLength
    omega

/-- What holds of all outcomes of the trials holds when a source answers. -/
theorem report_of_outcome {r : Except DrawError (Option Defect)}
    (h : ∀ vs r', (trials settings settings.iterations).Outcome vs r' → r' = r) {σ : Type}
    (source : Draw.Source σ) (s : σ) (seed : Nat) :
    report settings seed (source.run (trials settings settings.iterations) s).1 =
      report settings seed r := by
  obtain ⟨vs, hvs⟩ := source.outcome_run (trials settings settings.iterations) s
  rw [h vs _ hvs]

end

end PatternAutomata.Fuzzer
