import PatternAutomata.Proofs.GeneratorDraws
import PatternAutomata.Proofs.RandomWords
/-!
# Random words and the draws they take

Which question a random word asks next depends only on the answers so far: first for its length, and
then, if a buffer can be so long, once for each of its characters (`exchange_word`). A mixed word
asks before all of this whether it is to be a random one (`exchange_mixed`), unless there are no
words to choose it from.

So the number of draws, and with it the state that a generator is left in, is known for each word
that comes out and for each failure (`WordRange.draws_accounted`).
-/
namespace PatternAutomata

open Draw

namespace WordRange

variable {r : WordRange} {fixed : List (List Char)} {qs : List Drawn} {n : Nat} {w : List Char}

/-! ## The questions of a word -/

theorem exchange_word {res : Except DrawError (List Char)} : r.word.Exchange qs res ↔
    (r.high ≤ r.low ∧ qs = [] ∧ res = .error .emptyRange) ∨
      ∃ n ts, r.low ≤ n ∧ n < r.high ∧ qs = ⟨r.low, r.high, n⟩ :: ts ∧
        ((bufferLimit < n ∧ ts = [] ∧ res = .error .capacityOverflow) ∨
          (n ≤ bufferLimit ∧
            ((r.charset = [] ∧ 0 < n ∧ ts = [] ∧ res = .error .nothingToPick) ∨
              ∃ w, w.length = n ∧ List.Forall₂ (Picks r.charset) ts w ∧ res = .ok w))) := by
  simp only [word, Draw.word, exchange_inRange_bind, exchange_collect, exchange_times_pick,
    Nat.mul_one]

theorem mixed_nil : r.mixed [] = r.word := rfl

/-- The first question decides between a random word and one of the given words. -/
theorem exchange_mixed {res : Except DrawError (List Char)} (hfixed : fixed ≠ []) :
    (r.mixed fixed).Exchange qs res ↔
      (∃ ts, qs = ⟨0, 2, 0⟩ :: ts ∧ r.word.Exchange ts res) ∨
        ∃ q w, Picks fixed q w ∧ qs = [⟨0, 2, 1⟩, q] ∧ res = .ok w := by
  unfold mixed
  rw [if_neg (mt List.isEmpty_iff.mp hfixed), exchange_oneIn_ite Nat.two_pos]
  constructor
  · rintro (h | ⟨v, ts, hzero, hv, rfl, h⟩)
    · exact .inl h
    · obtain rfl : v = 1 := by omega
      rcases exchange_pick.mp h with ⟨hnil, -, -⟩ | ⟨q, w, hq, rfl, rfl⟩
      · exact absurd hnil hfixed
      · exact .inr ⟨q, w, hq, rfl, rfl⟩
  · rintro (h | ⟨q, w, hq, rfl, rfl⟩)
    · exact .inl h
    · exact .inr ⟨1, [q], by decide, by decide, rfl, exchange_pick.mpr (.inr ⟨q, w, hq, rfl, rfl⟩)⟩

/-- What a word that came out has taken, and what it is. -/
theorem holds_of_exchange (h : r.word.Exchange qs (.ok w)) :
    r.Holds w ∧ qs.length = 1 + w.length := by
  rcases exchange_word.mp h with ⟨-, -, ⟨⟩⟩ | ⟨n, ts, hlow, hhigh, rfl, hrest⟩
  rcases hrest with ⟨-, -, ⟨⟩⟩ | ⟨-, ⟨-, -, -, ⟨⟩⟩ | ⟨v, rfl, hv, ⟨⟩⟩⟩
  refine ⟨⟨hlow, hhigh, forall_mem_of_picks hv⟩, ?_⟩
  rw [List.length_cons, hv.length_eq, Nat.add_comm]

/-- Why a word did not come out. -/
theorem oversize_of_exchange {e : DrawError} (hc : r.charset ≠ []) (hlt : r.low < r.high)
    (h : r.word.Exchange qs (.error e)) :
    e = .capacityOverflow ∧ ∃ n, r.Oversize n ∧ qs = [⟨r.low, r.high, n⟩] := by
  rcases exchange_word.mp h with ⟨hle, -, -⟩ | ⟨n, ts, -, hhigh, rfl, hrest⟩
  · omega
  · rcases hrest with ⟨hlong, rfl, ⟨⟩⟩ | ⟨-, ⟨hnil, -, -, -⟩ | ⟨v, -, -, ⟨⟩⟩⟩
    · exact ⟨rfl, n, ⟨hlong, hhigh⟩, rfl⟩
    · exact absurd hnil hc

/-! ## The draws of a generator -/

variable {g : Pcg}

theorem spends_emptyRange (h : r.high ≤ r.low) : g.Spends r.word [] (.error .emptyRange) g :=
  Pcg.spends_of_answers (exchange_word.mpr (.inl ⟨h, rfl, rfl⟩)) (.nil g)

theorem run_word_eq_emptyRange_iff (hg : g.IsOdd) :
    (g.run r.word).1 = .error .emptyRange ↔ r.high ≤ r.low := by
  constructor
  · intro h
    obtain ⟨qs, res, g', hspends⟩ := hg.exists_spends r.word
    rw [hspends.run_eq] at h
    subst h
    rcases exchange_word.mp hspends.asked with ⟨hle, -, -⟩ | ⟨n, ts, -, -, -, hrest⟩
    · exact hle
    · rcases hrest with ⟨-, -, ⟨⟩⟩ | ⟨-, ⟨-, -, -, ⟨⟩⟩ | ⟨w, -, -, ⟨⟩⟩⟩
  · intro h
    rw [(spends_emptyRange h).run_eq]

/-- The first draw is for the length. It is the only one if a buffer cannot be so long, or if there
are no characters to go on with, and otherwise so many more follow. -/
theorem exists_spends_word (hg : g.IsOdd) (hlt : r.low < r.high) :
    ∃ n g₁, r.low ≤ n ∧ n < r.high ∧
      g.Spends (inRange r.low r.high) [⟨r.low, r.high, n⟩] (.ok n) g₁ ∧
      (bufferLimit < n → g.Spends r.word [⟨r.low, r.high, n⟩] (.error .capacityOverflow) g₁) ∧
      (n ≤ bufferLimit → r.charset = [] → 0 < n →
        g.Spends r.word [⟨r.low, r.high, n⟩] (.error .nothingToPick) g₁) ∧
      (n ≤ bufferLimit → r.charset ≠ [] ∨ n = 0 → ∃ picks w g₂, g₁.Answers picks g₂ ∧
        g.Spends r.word (⟨r.low, r.high, n⟩ :: picks) (.ok w) g₂ ∧
        picks.length = n ∧ w.length = n ∧ (∀ c ∈ w, c ∈ r.charset) ∧
        List.Forall₂ (Picks r.charset) picks w) := by
  obtain ⟨qs, res, g₂, hspends⟩ := hg.exists_spends r.word
  rcases exchange_word.mp hspends.asked with ⟨hle, -, -⟩ | ⟨n, picks, hlow, hhigh, rfl, hrest⟩
  · omega
  · obtain ⟨g₁, hfirst, hpicks⟩ := @Pcg.answers_append _ _ [_] _ hspends.answered
    have hlength : g.Spends (inRange r.low r.high) [⟨r.low, r.high, n⟩] (.ok n) g₁ :=
      Pcg.spends_of_answers (exchange_inRange.mpr (.inr ⟨n, hlow, hhigh, rfl, rfl⟩)) hfirst
    refine ⟨n, g₁, hlow, hhigh, hlength, ?_⟩
    rcases hrest with ⟨hlong, rfl, rfl⟩ | ⟨hfits, ⟨hnil, hpos, rfl, rfl⟩ | ⟨w, rfl, hw, rfl⟩⟩
    · cases hpicks
      refine ⟨fun _ => hspends, fun hfits => ?_, fun hfits => ?_⟩
      · omega
      · omega
    · cases hpicks
      refine ⟨fun hlong => ?_, fun _ _ _ => hspends, fun _ => ?_⟩
      · omega
      · rintro (hne | hzero)
        · exact absurd hnil hne
        · omega
    · have hmem : ∀ c ∈ w, c ∈ r.charset := forall_mem_of_picks hw
      refine ⟨fun hlong => ?_, fun _ hnil hpos => ?_, fun _ _ => ?_⟩
      · omega
      · obtain ⟨c, hc⟩ := List.exists_mem_of_length_pos hpos
        have hcharset : c ∈ r.charset := hmem c hc
        rw [hnil] at hcharset
        cases hcharset
      · exact ⟨picks, w, g₂, hpicks, hspends, hw.length_eq, rfl, hmem, hw⟩

/-- No word comes out of a range of lengths for which no buffer is long enough. -/
theorem run_word_of_bufferLimit_lt (hg : g.IsOdd) (hlong : bufferLimit < r.low)
    (hlt : r.low < r.high) : (g.run r.word).1 = .error .capacityOverflow := by
  obtain ⟨n, g₁, hlow, -, -, hfails, -⟩ := exists_spends_word hg hlt
  rw [(hfails (Nat.lt_of_lt_of_le hlong hlow)).run_eq]

/-- A mixed word takes one draw to choose between a random and a given word, if there are any given
words, and then those of the word chosen. -/
theorem exists_spends_mixed (hg : g.IsOdd) (hc : r.charset ≠ []) (hlt : r.low < r.high)
    (fixed : List (List Char)) :
    ∃ qs res g', g.Spends (r.mixed fixed) qs res g' ∧
      (fixed = [] → g.Spends r.word qs res g') ∧
      (∀ w, res = .ok w → (w ∈ fixed ∨ r.Holds w) ∧
        (fixed = [] → r.Holds w ∧ qs.length = 1 + w.length) ∧
        (fixed ≠ [] →
          (∃ ts, qs = ⟨0, 2, 0⟩ :: ts ∧ r.Holds w ∧ ts.length = 1 + w.length) ∨
            ∃ q, qs = [⟨0, 2, 1⟩, q] ∧ Picks fixed q w)) ∧
      ∀ e, res = .error e → e = .capacityOverflow ∧ ∃ n, r.Oversize n ∧
        (fixed = [] → qs = [⟨r.low, r.high, n⟩]) ∧
        (fixed ≠ [] → qs = [⟨0, 2, 0⟩, ⟨r.low, r.high, n⟩]) := by
  obtain ⟨qs, res, g', hspends⟩ := hg.exists_spends (r.mixed fixed)
  refine ⟨qs, res, g', hspends, ?_⟩
  by_cases hfixed : fixed = []
  · subst hfixed
    rw [mixed_nil] at hspends
    refine ⟨fun _ => hspends, ?_, ?_⟩
    · rintro w rfl
      have hw : r.Holds w ∧ qs.length = 1 + w.length := holds_of_exchange hspends.asked
      exact ⟨.inr hw.1, fun _ => hw, fun hne => absurd rfl hne⟩
    · rintro e rfl
      obtain ⟨he, n, hn, hqs⟩ := oversize_of_exchange hc hlt hspends.asked
      exact ⟨he, n, hn, fun _ => hqs, fun hne => absurd rfl hne⟩
  · refine ⟨fun hnil => absurd hnil hfixed, ?_⟩
    rcases (exchange_mixed hfixed).mp hspends.asked with ⟨ts, rfl, hword⟩ | ⟨q, v, hq, rfl, rfl⟩
    · refine ⟨?_, ?_⟩
      · rintro w rfl
        have hw : r.Holds w ∧ ts.length = 1 + w.length := holds_of_exchange hword
        exact ⟨.inr hw.1, fun hnil => absurd hnil hfixed, fun _ => .inl ⟨ts, rfl, hw⟩⟩
      · rintro e rfl
        obtain ⟨he, n, hn, rfl⟩ := oversize_of_exchange hc hlt hword
        exact ⟨he, n, hn, fun hnil => absurd hnil hfixed, fun _ => rfl⟩
    · refine ⟨?_, ?_⟩
      · rintro w ⟨⟩
        exact ⟨.inl hq.mem, fun hnil => absurd hnil hfixed, fun _ => .inr ⟨q, rfl, hq⟩⟩
      · rintro e ⟨⟩

theorem spends_guarded {α : Type} {d : Draw α} (hc : r.charset = []) :
    g.Spends (r.guarded d) [] (.error .emptyCharset) g := by
  rw [guarded, if_pos (List.isEmpty_iff.mpr hc)]
  exact Pcg.spends_of_answers (.fail _) (.nil g)

theorem guarded_of_ne_nil {α : Type} {d : Draw α} (hc : r.charset ≠ []) : r.guarded d = d :=
  if_neg (mt List.isEmpty_iff.mp hc)

/-- **Random words keep to their range, and to the draws that belong to them.** In every state that
can be reached, whatever has been drawn before, the following holds.

* A word fails with the empty range exactly if there are no lengths, and then nothing is drawn.
* Else a first draw is for its length. If no buffer can be so long, or if there are no characters,
  but some are wanted, the word fails now. Otherwise there is one draw more for each of its
  characters, which picks it.
* Where the characters are looked at beforehand, nothing is drawn if there are none.
* A mixed word over some characters is a given word or one of the range, and a draw decides between
  the two, but only if there are given words. It does not fail unless a length comes out for which
  no buffer is long enough. -/
theorem draws_accounted {seeding : BitVec 64 → Pcg} (hseeding : ∀ seed, (seeding seed).IsOdd)
    (hg : Pcg.Reachable seeding g) (r : WordRange) (fixed : List (List Char)) :
    (DrawError.emptyRange.message = "UniformSampler::sample_single: low >= high" ∧
      DrawError.nothingToPick.message = "nothing to pick from" ∧
      DrawError.emptyCharset.message = "empty input charset" ∧
      DrawError.capacityOverflow.message = "capacity overflow") ∧
    ((g.run r.word).1 = .error .emptyRange ↔ r.high ≤ r.low) ∧
    (r.high ≤ r.low → g.Spends r.word [] (.error .emptyRange) g) ∧
    (r.low < r.high → ∃ n g₁, r.low ≤ n ∧ n < r.high ∧
      g.Spends (inRange r.low r.high) [⟨r.low, r.high, n⟩] (.ok n) g₁ ∧
      (bufferLimit < n → g.Spends r.word [⟨r.low, r.high, n⟩] (.error .capacityOverflow) g₁) ∧
      (n ≤ bufferLimit → r.charset = [] → 0 < n →
        g.Spends r.word [⟨r.low, r.high, n⟩] (.error .nothingToPick) g₁) ∧
      (n ≤ bufferLimit → r.charset ≠ [] ∨ n = 0 → ∃ picks w g₂, g₁.Answers picks g₂ ∧
        g.Spends r.word (⟨r.low, r.high, n⟩ :: picks) (.ok w) g₂ ∧
        picks.length = n ∧ w.length = n ∧ (∀ c ∈ w, c ∈ r.charset) ∧
        List.Forall₂ (Picks r.charset) picks w)) ∧
    (r.charset = [] → g.Spends r.drawWord [] (.error .emptyCharset) g ∧
      ∀ count, g.Spends (r.drawMixed fixed count) [] (.error .emptyCharset) g) ∧
    (r.charset ≠ [] → r.drawWord = r.word ∧
      ∀ count, r.drawMixed fixed count = times count (r.mixed fixed)) ∧
    (r.charset ≠ [] → r.low < r.high →
      ∃ qs res g', g.Spends (r.mixed fixed) qs res g' ∧
        (fixed = [] → g.Spends r.word qs res g') ∧
        (∀ w, res = .ok w → (w ∈ fixed ∨ r.Holds w) ∧
          (fixed = [] → r.Holds w ∧ qs.length = 1 + w.length) ∧
          (fixed ≠ [] →
            (∃ ts, qs = ⟨0, 2, 0⟩ :: ts ∧ r.Holds w ∧ ts.length = 1 + w.length) ∨
              ∃ q, qs = [⟨0, 2, 1⟩, q] ∧ Picks fixed q w)) ∧
        (∀ e, res = .error e → e = .capacityOverflow ∧ ∃ n, r.Oversize n ∧
          (fixed = [] → qs = [⟨r.low, r.high, n⟩]) ∧
          (fixed ≠ [] → qs = [⟨0, 2, 0⟩, ⟨r.low, r.high, n⟩])) ∧
        (r.high ≤ bufferLimit + 1 → ∃ w, res = .ok w)) := by
  have hodd : g.IsOdd := hg.isOdd hseeding
  refine ⟨⟨rfl, rfl, rfl, rfl⟩, run_word_eq_emptyRange_iff hodd, spends_emptyRange,
    exists_spends_word hodd, fun hc => ?_, fun hc => ?_, fun hc hlt => ?_⟩
  · exact ⟨spends_guarded hc, fun _ => spends_guarded hc⟩
  · exact ⟨guarded_of_ne_nil hc, fun _ => guarded_of_ne_nil hc⟩
  · obtain ⟨qs, res, g', hspends, hnil, hok, herror⟩ := exists_spends_mixed hodd hc hlt fixed
    refine ⟨qs, res, g', hspends, hnil, hok, herror, fun hhigh => ?_⟩
    cases res with
    | ok w => exact ⟨w, rfl⟩
    | error e =>
      obtain ⟨-, n, hn, -⟩ := herror e rfl
      have hlong : bufferLimit < n := hn.bufferLimit_lt
      have hlt' : n < r.high := hn.lt_high
      omega

/-- Two characters with nothing to choose them from, after another draw. -/
theorem draws_accounted_no_characters :
    (∀ seed, (Pcg.ofSeed seed).IsOdd) ∧
    Pcg.Reachable Pcg.ofSeed ((Pcg.ofSeed 7).run (oneIn 2)).2 ∧
    ∃ g', ((Pcg.ofSeed 7).run (oneIn 2)).2.Spends (word ⟨2, 3, []⟩) [⟨2, 3, 2⟩]
      (.error .nothingToPick) g' := by
  have hg : Pcg.Reachable Pcg.ofSeed ((Pcg.ofSeed 7).run (oneIn 2)).2 := .drawn _ (.seeded 7)
  obtain ⟨-, -, -, hword, -⟩ := draws_accounted Pcg.isOdd_ofSeed hg ⟨2, 3, []⟩ []
  obtain ⟨n, g', hlow, hhigh, -, -, hfails, -⟩ := hword (by decide)
  obtain rfl : n = 2 := by
    dsimp only at hlow hhigh
    omega
  exact ⟨Pcg.isOdd_ofSeed, hg, g', hfails (by decide) rfl (by decide)⟩

/-- Characters are wanted and there are none, but the buffer for them is asked for first. Nor does
it help to have one character, where words are mixed. -/
theorem capacityOverflow_before_nothingToPick :
    Pcg.Reachable Pcg.ofSeed (Pcg.ofSeed 1) ∧
    ((Pcg.ofSeed 1).run (word ⟨9223372036854775808, 9223372036854775809, []⟩)).1 ≠
      .error .nothingToPick ∧
    ((Pcg.ofSeed 1).run (word ⟨9223372036854775808, 9223372036854775809, []⟩)).1 =
      .error .capacityOverflow ∧
    ((Pcg.ofSeed 1).run (mixed ⟨9223372036854775808, 9223372036854775809, ['a']⟩ [])).1 =
      .error .capacityOverflow := by
  have hodd : (Pcg.ofSeed 1).IsOdd := Pcg.isOdd_ofSeed 1
  have hlong : bufferLimit < 9223372036854775808 := by decide
  have hword : ((Pcg.ofSeed 1).run (word ⟨9223372036854775808, 9223372036854775809, []⟩)).1 =
      .error .capacityOverflow := run_word_of_bufferLimit_lt hodd hlong (Nat.lt_succ_self _)
  refine ⟨.seeded 1, ?_, hword, ?_⟩
  · rw [hword]
    rintro ⟨⟩
  · rw [mixed_nil]
    exact run_word_of_bufferLimit_lt hodd hlong (Nat.lt_succ_self _)

end WordRange
end PatternAutomata
