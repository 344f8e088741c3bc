import Mathlib.Data.Nat.Find
import PatternAutomata.Proofs.StateLanguages
/-!
# Where symbols lead

An edge for a symbol leads to an entry (`Entry`). An entry belongs to one symbol (`Built.symbol_eq`)
and is not among the states in which a run begins (`Built.not_silent_zero`).

From one entry another can be reached without consuming anything: a repetition goes round again, and
the state in which it begins may be an entry of what precedes it. But then the other entry has the
smaller number (`Built.le_of_silent`). So the greatest entry among the states of a run is one that
the last symbol led to, and these states tell the symbol (`Built.symbol_eq_of_advance_eq`).
-/
namespace PatternAutomata

open Relation (ReflTransGen)

namespace Nfa

/-- An edge for `c` leads to `r`. -/
def Entry (a : Nfa) (c : Char) (r : Nat) : Prop := ∃ q, a.Step q (.symbol c) r

/-- Edges that consume nothing lead from `q` to `r`. -/
def Silent (a : Nfa) (q r : Nat) : Prop := ReflTransGen (fun q r => a.Step q .epsilon r) q r

variable {a b c : Nfa} {d e : Char} {k q r s : Nat}

/-! ## The entries of each composition -/

namespace Shaped

variable (ha : a.Shaped) (hb : b.Shaped)

theorem entry_symbol : (Nfa.symbol e).Entry d r ↔ d = e ∧ r = 1 := by
  simp [Entry, step_symbol]

include ha

theorem entry_le_final (h : a.Entry d r) : r ≤ a.final := by
  obtain ⟨q, hs⟩ := h
  exact ha.target_le_final hs

theorem entry_concat :
    (a.concat b).Entry d r ↔ a.Entry d r ∨ ∃ s, r = s + a.final ∧ b.Entry d s := by
  constructor
  · rintro ⟨q, hs⟩
    rcases ha.step_concat.mp hs with hp | ⟨p, s, -, rfl, hp⟩
    · exact .inl ⟨q, hp⟩
    · exact .inr ⟨s, rfl, p, hp⟩
  · rintro (⟨q, hs⟩ | ⟨s, rfl, p, hs⟩)
    · exact ⟨q, ha.step_concat.mpr (.inl hs)⟩
    · exact ⟨_, ha.step_concat.mpr (.inr ⟨p, s, rfl, rfl, hs⟩)⟩

include hb in
theorem entry_alternate :
    (a.alternate b).Entry d r ↔
      (∃ s, r = s + 1 ∧ a.Entry d s) ∨ ∃ s, r = s + (a.size + 1) ∧ b.Entry d s := by
  constructor
  · rintro ⟨q, hs⟩
    rcases (ha.step_alternate hb).mp hs with
      ⟨-, hl, -⟩ | ⟨p, s, -, rfl, hp⟩ | ⟨p, s, -, rfl, hp⟩ | ⟨-, hl, -⟩
    · cases hl
    · exact .inl ⟨s, rfl, p, hp⟩
    · exact .inr ⟨s, rfl, p, hp⟩
    · cases hl
  · rintro (⟨s, rfl, p, hs⟩ | ⟨s, rfl, p, hs⟩)
    · exact ⟨_, (ha.step_alternate hb).mpr (.inr (.inl ⟨p, s, rfl, rfl, hs⟩))⟩
    · exact ⟨_, (ha.step_alternate hb).mpr (.inr (.inr (.inl ⟨p, s, rfl, rfl, hs⟩)))⟩

omit ha in
/-- What `star` and `optional` share: edges of their own consume nothing. -/
theorem entry_wrapped {exits : List Nat}
    (hstep : ∀ q l r, c.Step q l r ↔
      (q = 0 ∧ l = .epsilon ∧ r ∈ [1, a.size + 1]) ∨
        (∃ p s, q = p + 1 ∧ r = s + 1 ∧ a.Step p l s) ∨
        (q = a.final + 1 ∧ l = .epsilon ∧ r ∈ exits)) :
    c.Entry d r ↔ ∃ s, r = s + 1 ∧ a.Entry d s := by
  constructor
  · rintro ⟨q, hs⟩
    rcases (hstep _ _ _).mp hs with ⟨-, hl, -⟩ | ⟨p, s, -, rfl, hp⟩ | ⟨-, hl, -⟩
    · cases hl
    · exact ⟨s, rfl, p, hp⟩
    · cases hl
  · rintro ⟨s, rfl, p, hs⟩
    exact ⟨_, (hstep _ _ _).mpr (.inr (.inl ⟨p, s, rfl, rfl, hs⟩))⟩

theorem entry_star : a.star.Entry d r ↔ ∃ s, r = s + 1 ∧ a.Entry d s :=
  entry_wrapped fun _ _ _ => ha.step_star

theorem entry_optional : a.optional.Entry d r ↔ ∃ s, r = s + 1 ∧ a.Entry d s :=
  entry_wrapped fun _ _ _ => ha.step_optional

end Shaped

/-! ## Entries and the beginning -/

/-- No entry is reached before a symbol is consumed. -/
theorem Built.not_silent_zero (ha : a.Built) (h : a.Entry d r) : ¬ a.Silent 0 r := by
  intro hzero
  obtain ⟨q, hs⟩ := h
  exact ha.nil_notMem_wordsTo hs (Path.of_epsilons hzero)

theorem Built.entry_pos (ha : a.Built) (h : a.Entry d r) : 0 < r := by
  refine Nat.pos_of_ne_zero fun hr => ?_
  subst hr
  exact ha.not_silent_zero h .refl

/-- **An entry belongs to one symbol.** -/
theorem Built.symbol_eq (ha : a.Built) (hd : a.Entry d r) (he : a.Entry e r) : d = e := by
  induction ha generalizing r with
  | symbol c =>
    rw [(Shaped.entry_symbol.mp hd).1, (Shaped.entry_symbol.mp he).1]
  | @concat a b ha hb iha ihb =>
    have ha' := ha.shaped
    rcases ha'.entry_concat.mp hd with hda | ⟨s, rfl, hdb⟩ <;>
      rcases ha'.entry_concat.mp he with hea | ⟨s', hs, heb⟩
    · exact iha hda hea
    · -- in the state in which the operands meet the second one has no entry
      have := ha'.entry_le_final hda
      have := hb.entry_pos heb
      omega
    · have := ha'.entry_le_final hea
      have := hb.entry_pos hdb
      omega
    · obtain rfl : s = s' := Nat.add_right_cancel hs
      exact ihb hdb heb
  | @alternate a b ha hb iha ihb =>
    have ha' := ha.shaped
    have hsize := ha'.size_eq
    rcases (ha'.entry_alternate hb.shaped).mp hd with ⟨s, rfl, hda⟩ | ⟨s, rfl, hdb⟩ <;>
      rcases (ha'.entry_alternate hb.shaped).mp he with ⟨s', hs, hea⟩ | ⟨s', hs, heb⟩
    · obtain rfl : s = s' := Nat.add_right_cancel hs
      exact iha hda hea
    · have := ha'.entry_le_final hda
      omega
    · have := ha'.entry_le_final hea
      omega
    · obtain rfl : s = s' := Nat.add_right_cancel hs
      exact ihb hdb heb
  | @star a ha iha =>
    obtain ⟨s, rfl, hda⟩ := ha.shaped.entry_star.mp hd
    obtain ⟨s', hs, hea⟩ := ha.shaped.entry_star.mp he
    obtain rfl : s = s' := Nat.add_right_cancel hs
    exact iha hda hea
  | @optional a ha iha =>
    obtain ⟨s, rfl, hda⟩ := ha.shaped.entry_optional.mp hd
    obtain ⟨s', hs, hea⟩ := ha.shaped.entry_optional.mp he
    obtain rfl : s = s' := Nat.add_right_cancel hs
    exact iha hda hea

/-! ## What is reached without consuming anything -/

/-- From a state of an operand, what is reached without consuming anything is outside the operand,
or it is reached inside, from that state or from the initial one. -/
theorem Silent.inside (outside : Nat → Prop) (ha : a.Shaped)
    (hinside : ∀ p r, p ≤ a.final → c.Step (p + k) .epsilon r →
      (∃ s, r = s + k ∧ a.Step p .epsilon s) ∨ outside r)
    (houtside : ∀ p r, outside p → c.Step p .epsilon r → r = k ∨ outside r)
    (hq : q ≤ a.final) (h : c.Silent (q + k) r) :
    outside r ∨ ∃ s ≤ a.final, r = s + k ∧ (a.Silent q s ∨ a.Silent 0 s) := by
  induction h with
  | refl => exact .inr ⟨q, hq, rfl, .inl .refl⟩
  | @tail p r _ hstep ih =>
    rcases ih with hp | ⟨s, hs, rfl, hsilent⟩
    · rcases houtside p r hp hstep with rfl | hr
      · exact .inr ⟨0, Nat.zero_le _, (Nat.zero_add _).symm, .inr .refl⟩
      · exact .inl hr
    · rcases hinside s r hs hstep with ⟨s', rfl, hs'⟩ | hr
      · refine .inr ⟨s', ha.target_le_final hs', rfl, ?_⟩
        exact hsilent.imp (fun h => h.tail hs') (fun h => h.tail hs')
      · exact .inl hr

namespace Shaped

variable (ha : a.Shaped) (hb : b.Shaped)
include ha

/-- From the first operand: inside it, or through the state in which the operands meet. -/
theorem silent_concat_first (hq : q ≤ a.final) (h : (a.concat b).Silent q r) :
    (r ≤ a.final ∧ a.Silent q r) ∨
      ∃ s, r = s + a.final ∧ a.Silent q a.final ∧ b.Silent 0 s := by
  induction h with
  | refl => exact .inl ⟨hq, .refl⟩
  | @tail p r _ hstep ih =>
    rcases ih with ⟨hp, hsilent⟩ | ⟨s, rfl, hthrough, hsilent⟩
    · rcases ha.step_concat.mp hstep with hs | ⟨p', s, rfl, rfl, hs⟩
      · exact .inl ⟨ha.target_le_final hs, hsilent.tail hs⟩
      · obtain rfl : p' = 0 := by omega
        rw [Nat.zero_add] at hsilent
        exact .inr ⟨s, rfl, hsilent, .tail .refl hs⟩
    · rcases ha.step_concat.mp hstep with hs | ⟨p', s', hp, rfl, hs⟩
      · have := ha.lt_final hs
        omega
      · obtain rfl : s = p' := Nat.add_right_cancel hp
        exact .inr ⟨s', rfl, hthrough, hsilent.tail hs⟩

/-- From the second operand there is no way back into the first. -/
theorem silent_concat_second (h : (a.concat b).Silent (q + a.final) r) :
    ∃ s, r = s + a.final ∧ b.Silent q s := by
  induction h with
  | refl => exact ⟨q, rfl, .refl⟩
  | @tail p r _ hstep ih =>
    obtain ⟨s, rfl, hsilent⟩ := ih
    rcases ha.step_concat.mp hstep with hs | ⟨p', s', hp, rfl, hs⟩
    · have := ha.lt_final hs
      omega
    · obtain rfl : s = p' := Nat.add_right_cancel hp
      exact ⟨s', rfl, hsilent.tail hs⟩

include hb in
theorem silent_alternate_first (hq : q ≤ a.final) (h : (a.alternate b).Silent (q + 1) r) :
    r = a.size + b.size + 1 ∨ ∃ s ≤ a.final, r = s + 1 ∧ (a.Silent q s ∨ a.Silent 0 s) := by
  have hsa := ha.size_eq
  have hsb := hb.size_eq
  refine Silent.inside (· = a.size + b.size + 1) ha ?_ ?_ hq h
  · intro p r hp hstep
    rcases (ha.step_alternate hb).mp hstep with
      ⟨h, -⟩ | ⟨p', s, hp', rfl, hs⟩ | ⟨p', s, hp', -, -⟩ | ⟨-, -, hr⟩
    · omega
    · obtain rfl : p = p' := Nat.add_right_cancel hp'
      exact .inl ⟨s, rfl, hs⟩
    · omega
    · exact .inr hr
  · rintro _ r rfl hstep
    have hlt := (ha.alternate hb).lt_final hstep
    rw [final_alternate] at hlt
    omega

include hb in
theorem silent_alternate_second (hq : q ≤ b.final)
    (h : (a.alternate b).Silent (q + (a.size + 1)) r) :
    r = a.size + b.size + 1 ∨
      ∃ s ≤ b.final, r = s + (a.size + 1) ∧ (b.Silent q s ∨ b.Silent 0 s) := by
  have hsa := ha.size_eq
  have hsb := hb.size_eq
  refine Silent.inside (· = a.size + b.size + 1) hb ?_ ?_ hq h
  · intro p r hp hstep
    rcases (ha.step_alternate hb).mp hstep with
      ⟨h, -⟩ | ⟨p', s, hp', -, hs⟩ | ⟨p', s, hp', rfl, hs⟩ | ⟨-, -, hr⟩
    · omega
    · have := hs.lt_size
      omega
    · obtain rfl : p = p' := Nat.add_right_cancel hp'
      exact .inl ⟨s, rfl, hs⟩
    · exact .inr hr
  · rintro _ r rfl hstep
    have hlt := (ha.alternate hb).lt_final hstep
    rw [final_alternate] at hlt
    omega

/-- What `star` and `optional` share: outside the operand are their own two states, and they lead
into it at its initial state. -/
theorem silent_wrapped {exits : List Nat} (hc : c.Shaped) (hfinal : c.final = a.size + 1)
    (hexits : ∀ r ∈ exits, r = 0 ∨ r = a.size + 1)
    (hstep : ∀ q l r, c.Step q l r ↔
      (q = 0 ∧ l = .epsilon ∧ r ∈ [1, a.size + 1]) ∨
        (∃ p s, q = p + 1 ∧ r = s + 1 ∧ a.Step p l s) ∨
        (q = a.final + 1 ∧ l = .epsilon ∧ r ∈ exits))
    (hq : q ≤ a.final) (h : c.Silent (q + 1) r) :
    (r = 0 ∨ r = a.size + 1) ∨ ∃ s ≤ a.final, r = s + 1 ∧ (a.Silent q s ∨ a.Silent 0 s) := by
  refine Silent.inside (fun r => r = 0 ∨ r = a.size + 1) ha ?_ ?_ hq h
  · intro p r hp hs
    rcases (hstep _ _ _).mp hs with ⟨h, -⟩ | ⟨p', s, hp', rfl, hs⟩ | ⟨-, -, hr⟩
    · omega
    · obtain rfl : p = p' := Nat.add_right_cancel hp'
      exact .inl ⟨s, rfl, hs⟩
    · exact .inr (hexits r hr)
  · rintro p r (rfl | rfl) hs
    · rcases (hstep _ _ _).mp hs with ⟨-, -, hr⟩ | ⟨p', s, hp', -⟩ | ⟨h, -⟩
      · have hr : r = 1 ∨ r = a.size + 1 := by simpa using hr
        exact hr.imp_right .inr
      all_goals omega
    · have hlt := hc.lt_final hs
      omega

theorem silent_star (hq : q ≤ a.final) (h : a.star.Silent (q + 1) r) :
    (r = 0 ∨ r = a.size + 1) ∨ ∃ s ≤ a.final, r = s + 1 ∧ (a.Silent q s ∨ a.Silent 0 s) :=
  ha.silent_wrapped ha.star rfl (by simp) (fun _ _ _ => ha.step_star) hq h

theorem silent_optional (hq : q ≤ a.final) (h : a.optional.Silent (q + 1) r) :
    (r = 0 ∨ r = a.size + 1) ∨ ∃ s ≤ a.final, r = s + 1 ∧ (a.Silent q s ∨ a.Silent 0 s) :=
  ha.silent_wrapped ha.optional rfl (by simp) (fun _ _ _ => ha.step_optional) hq h

end Shaped

/-- An entry inside an operand is reached from the state at hand, not from the initial one. -/
theorem Built.silent_of_entry (ha : a.Built) (hs : a.Entry e s)
    (h : ∃ s' ≤ a.final, s + k = s' + k ∧ (a.Silent r s' ∨ a.Silent 0 s')) : a.Silent r s := by
  obtain ⟨s', -, hs', hsilent⟩ := h
  obtain rfl : s = s' := Nat.add_right_cancel hs'
  exact hsilent.resolve_right (ha.not_silent_zero hs)

/-- **An entry that is reached from another without consuming anything has the smaller number.** -/
theorem Built.le_of_silent (ha : a.Built) (hr : a.Entry d r) (hs : a.Entry e s)
    (h : a.Silent r s) : s ≤ r := by
  induction ha generalizing r s with
  | symbol c =>
    rw [(Shaped.entry_symbol.mp hr).2, (Shaped.entry_symbol.mp hs).2]
  | @concat a b ha hb iha ihb =>
    have ha' := ha.shaped
    rcases ha'.entry_concat.mp hr with hra | ⟨r, rfl, hrb⟩
    · have hle := ha'.entry_le_final hra
      rcases ha'.entry_concat.mp hs with hsa | ⟨s, rfl, hsb⟩
      · have hsf := ha'.entry_le_final hsa
        rcases ha'.silent_concat_first hle h with ⟨-, hsilent⟩ | ⟨s', rfl, hthrough, -⟩
        · exact iha hra hsa hsilent
        · -- the entry is the state in which the operands meet
          obtain rfl : s' = 0 := by omega
          rw [Nat.zero_add] at hsa ⊢
          exact iha hra hsa hthrough
      · have hpos := hb.entry_pos hsb
        rcases ha'.silent_concat_first hle h with ⟨hsf, -⟩ | ⟨s', hs', -, hsilent⟩
        · omega
        · obtain rfl : s = s' := Nat.add_right_cancel hs'
          exact absurd hsilent (hb.not_silent_zero hsb)
    · obtain ⟨s', rfl, hsilent⟩ := ha'.silent_concat_second h
      rcases ha'.entry_concat.mp hs with hsa | ⟨s, hs', hsb⟩
      · have := ha'.entry_le_final hsa
        omega
      · obtain rfl : s' = s := Nat.add_right_cancel hs'
        exact Nat.add_le_add_right (ihb hrb hsb hsilent) _
  | @alternate a b ha hb iha ihb =>
    have ha' := ha.shaped
    have hb' := hb.shaped
    have hsizea := ha'.size_eq
    have hsizeb := hb'.size_eq
    rcases (ha'.entry_alternate hb').mp hr with ⟨r, rfl, hra⟩ | ⟨r, rfl, hrb⟩ <;>
      rcases (ha'.entry_alternate hb').mp hs with ⟨s, rfl, hsa⟩ | ⟨s, rfl, hsb⟩
    · have hrf := ha'.entry_le_final hra
      have hsf := ha'.entry_le_final hsa
      have hinside := (ha'.silent_alternate_first hb' hrf h).resolve_left (by omega)
      exact Nat.add_le_add_right (iha hra hsa (ha.silent_of_entry hsa hinside)) 1
    · have hrf := ha'.entry_le_final hra
      have hsf := hb'.entry_le_final hsb
      obtain ⟨s', hs'f, hs', -⟩ := (ha'.silent_alternate_first hb' hrf h).resolve_left (by omega)
      omega
    · have hsf := ha'.entry_le_final hsa
      omega
    · have hrf := hb'.entry_le_final hrb
      have hsf := hb'.entry_le_final hsb
      have hinside := (ha'.silent_alternate_second hb' hrf h).resolve_left (by omega)
      exact Nat.add_le_add_right (ihb hrb hsb (hb.silent_of_entry hsb hinside)) _
  | @star a ha iha =>
    have ha' := ha.shaped
    have hsize := ha'.size_eq
    obtain ⟨r, rfl, hra⟩ := ha'.entry_star.mp hr
    obtain ⟨s, rfl, hsa⟩ := ha'.entry_star.mp hs
    have hsf := ha'.entry_le_final hsa
    have hinside := (ha'.silent_star (ha'.entry_le_final hra) h).resolve_left (by omega)
    exact Nat.add_le_add_right (iha hra hsa (ha.silent_of_entry hsa hinside)) 1
  | @optional a ha iha =>
    have ha' := ha.shaped
    have hsize := ha'.size_eq
    obtain ⟨r, rfl, hra⟩ := ha'.entry_optional.mp hr
    obtain ⟨s, rfl, hsa⟩ := ha'.entry_optional.mp hs
    have hsf := ha'.entry_le_final hsa
    have hinside := (ha'.silent_optional (ha'.entry_le_final hra) h).resolve_left (by omega)
    exact Nat.add_le_add_right (iha hra hsa (ha.silent_of_entry hsa hinside)) 1

/-! ## The symbol consumed last -/

/-- What one symbol leads to are entries. -/
theorem entry_of_mem_moveOn {t : IndexSet} (h : r ∈ a.moveOn t d) : a.Entry d r := by
  obtain ⟨q, -, hs⟩ := mem_moveOn.mp h
  exact ⟨q, hs⟩

/-- The greatest entry among the states after a symbol is one that this symbol led to. -/
theorem Built.exists_greatest_entry (ha : a.Built) {t : IndexSet}
    (hne : (a.advance t d).isEmpty = false) :
    ∃ m ∈ a.advance t d, a.Entry d m ∧ ∀ e s, a.Entry e s → s ∈ a.advance t d → s ≤ m := by
  have hclosed := ha.shaped.closed
  obtain ⟨i, hi⟩ := exists_mem_of_isEmpty_eq_false hne
  obtain ⟨q, hq, -⟩ := (mem_closure hclosed).mp hi
  have hbound : ∀ r ∈ a.moveOn t d, r ≤ a.final := fun r hr =>
    ha.shaped.entry_le_final (entry_of_mem_moveOn hr)
  have hm := Nat.findGreatest_spec (P := (· ∈ a.moveOn t d)) (hbound q hq) hq
  refine ⟨_, (mem_closure hclosed).mpr ⟨_, hm, .refl⟩, entry_of_mem_moveOn hm, ?_⟩
  intro e s hs hmem
  obtain ⟨r, hr, hsilent⟩ := (mem_closure hclosed).mp hmem
  have hle : s ≤ r := ha.le_of_silent (entry_of_mem_moveOn hr) hs hsilent
  exact hle.trans (Nat.le_findGreatest (hbound r hr) hr)

/-- **The states after a symbol tell the symbol.** -/
theorem Built.symbol_eq_of_advance_eq (ha : a.Built) {t u : IndexSet}
    (h : a.advance t d = a.advance u e) (hne : (a.advance t d).isEmpty = false) : d = e := by
  obtain ⟨m, hm, hd, hgreatest⟩ := ha.exists_greatest_entry hne
  rw [h] at hne
  obtain ⟨n, hn, he, hgreatest'⟩ := ha.exists_greatest_entry hne
  have hnm : n ≤ m := hgreatest e n he (h ▸ hn)
  have hmn : m ≤ n := hgreatest' d m hd (h ▸ hm)
  obtain rfl : m = n := Nat.le_antisymm hmn hnm
  exact ha.symbol_eq hd he

end Nfa
end PatternAutomata
