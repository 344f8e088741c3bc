import PatternAutomata.Generate.Word
import PatternAutomata.Proofs.Language
import PatternAutomata.Proofs.Outcomes
/-!
# Drawn words belong where they should

Whatever is drawn, a witness belongs to the language of its tree (`Tree.always_witness`), and a
mixed word is one of the given words or one of the range, unless the length that was drawn for it is
more than a buffer can have (`WordRange.barring_mixed`).
-/
namespace PatternAutomata

open Draw

/-! ## Words of a language -/

/-- **A witness is a member**, one combination of the members drawn for the parts. -/
theorem Tree.always_witness (t : Tree) : t.witness.Always t.Matches := by
  induction t with
  | literal c => exact .literal c
  | sequence x y hx hy =>
    rw [witness]
    refine hx.bind fun u hu => hy.bind fun v hv => ?_
    exact .sequence hu hv
  | alternative x y hx hy =>
    rw [witness]
    refine (always_oneIn (by decide)).bind fun isFirst _ => ?_
    cases isFirst with
    | true => exact hx.mono fun u hu => .first hu
    | false => exact hy.mono fun u hu => .second hu
  | star x hx =>
    rw [witness]
    refine always_bind.mpr ((always_inRange (by decide)).mpr fun n _ _ => ?_)
    refine (hx.times n).bind fun ws hws => ?_
    exact matches_star_iff.mpr ⟨ws, rfl, hws.2⟩
  | optional x hx =>
    rw [witness]
    refine (always_oneIn (by decide)).bind fun present _ => ?_
    cases present with
    | true => exact hx.mono fun u hu => .present hu
    | false => exact .absent

/-! ## Words of a range -/

namespace WordRange

variable {r : WordRange} {w : List Char}

/-- `w` is a word of the range. -/
structure Holds (r : WordRange) (w : List Char) : Prop where
  low_le : r.low ≤ w.length
  lt_high : w.length < r.high
  mem_charset : ∀ c ∈ w, c ∈ r.charset

/-- A length of the range for which no buffer is long enough. -/
structure Oversize (r : WordRange) (n : Nat) : Prop where
  bufferLimit_lt : bufferLimit < n
  lt_high : n < r.high

theorem barring_word (h : r.low < r.high) (hc : r.charset ≠ []) :
    r.word.Barring r.Oversize .capacityOverflow r.Holds := by
  refine barring_inRange_bind h fun n hlow hhigh => ?_
  rcases Nat.lt_or_ge bufferLimit n with hlong | hfits
  · refine .inl ⟨⟨hlong, hhigh⟩, collect_of_lt ?_⟩
    rwa [Nat.mul_one]
  · rw [collect_of_le (by rwa [Nat.mul_one])]
    refine .inr (((always_pick hc).times n).mono fun w hw => ?_).barring
    obtain ⟨rfl, hmem⟩ := hw
    exact ⟨hlow, hhigh, hmem⟩

theorem barring_mixed (h : r.low < r.high) (hc : r.charset ≠ []) (fixed : List (List Char)) :
    (r.mixed fixed).Barring r.Oversize .capacityOverflow fun w => w ∈ fixed ∨ r.Holds w := by
  have hword : r.word.Barring r.Oversize .capacityOverflow fun w => w ∈ fixed ∨ r.Holds w :=
    (barring_word h hc).mono (fun _ => id) fun _ => .inr
  unfold mixed
  by_cases hfixed : fixed = []
  · rw [if_pos (List.isEmpty_iff.mpr hfixed)]
    exact hword
  · rw [if_neg (mt List.isEmpty_iff.mp hfixed)]
    refine (always_oneIn (by decide)).barring.bind fun random _ => ?_
    cases random with
    | true => exact hword
    | false => exact ((always_pick hfixed).mono fun _ => .inl).barring

end WordRange
end PatternAutomata
