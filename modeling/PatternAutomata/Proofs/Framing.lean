import PatternAutomata.Proofs.Reading
/-!
# What is read does not depend on where it stands

A character leaves the open groups alone, opens one or closes the innermost one
(`Reads.cases_groups`), and what it does to the level at hand depends neither on the groups around
it nor on its position. So characters that are read in one place are read alike in any other, inside
further groups as well (`readFrom_framed`).

The other way round, what stands inside the innermost open group was read as it would be alone. The
groups cut the pattern into such parts, each behind the parenthesis of its group (`Enclosed`).
-/
namespace PatternAutomata

namespace Progress

variable {p p' q : Progress} {position position' : Nat} {c : Char} {s r : List Char}

/-! ## What a character does to the groups -/

/-- **What a character does to the groups**: it leaves them alone, opens one or closes one. In the
first two cases it would do the same with other groups around it. -/
theorem Reads.cases_groups {gs : List OpenGroup} {l : Level} {o : Option Operand}
    (h : Reads position ⟨gs, l, o⟩ c p') :
    (∃ l' o', p' = ⟨gs, l', o'⟩ ∧
      ∀ position gs, Reads position ⟨gs, l, o⟩ c ⟨gs, l', o'⟩) ∨
    (∃ l', p' = ⟨⟨position, l'⟩ :: gs, .empty, none⟩ ∧ c = '(' ∧
      ∀ position gs, Reads position ⟨gs, l, o⟩ '(' ⟨⟨position, l'⟩ :: gs, .empty, none⟩) ∨
    ∃ g gs' last, gs = g :: gs' ∧ o = some last ∧ c = ')' ∧
      p' = ⟨gs', g.outside, some ⟨l.close last.tree, true⟩⟩ := by
  generalize hp : (⟨gs, l, o⟩ : Progress) = p at h
  induction h generalizing l o with
  | literal hc =>
    cases hp
    exact .inl ⟨_, _, rfl, fun _ _ => .literal hc⟩
  | opens =>
    cases hp
    exact .inr (.inl ⟨_, rfl, rfl, fun _ _ => .opens⟩)
  | juxtaposed _ ih =>
    cases hp
    rcases ih rfl with ⟨l', o', rfl, hsame⟩ | ⟨l', rfl, rfl, hsame⟩ | ⟨_, _, _, _, hnone, _⟩
    · exact .inl ⟨l', o', rfl, fun position gs => .juxtaposed (hsame position gs)⟩
    · exact .inr (.inl ⟨l', rfl, rfl, fun position gs => .juxtaposed (hsame position gs)⟩)
    · cases hnone
  | star =>
    cases hp
    exact .inl ⟨_, _, rfl, fun _ _ => .star⟩
  | question =>
    cases hp
    exact .inl ⟨_, _, rfl, fun _ _ => .question⟩
  | bar =>
    cases hp
    exact .inl ⟨_, _, rfl, fun _ _ => .bar⟩
  | closes =>
    cases hp
    exact .inr (.inr ⟨_, _, _, rfl, rfl, rfl, rfl⟩)

/-! ## In other places -/

/-- `q` holds what `p` holds, inside further groups that go on with `base` when they are closed. The
groups need not stand at the same positions. -/
structure Framed (base : List Level) (p q : Progress) : Prop where
  groups : q.groups.map OpenGroup.outside = p.groups.map OpenGroup.outside ++ base
  level : q.level = p.level
  operand : q.operand = p.operand

theorem Framed.refl (p : Progress) : Framed [] p p := ⟨(List.append_nil _).symm, rfl, rfl⟩

theorem Reads.framed {base : List Level} (h : Reads position p c p') (hpq : Framed base p q)
    (position' : Nat) : ∃ q', Reads position' q c q' ∧ Framed base p' q' := by
  obtain ⟨gs, l, o⟩ := p
  obtain ⟨gs', l', o'⟩ := q
  obtain ⟨hgroups, hlevel, hoperand⟩ := hpq
  dsimp only at hgroups hlevel hoperand
  subst hlevel hoperand
  rcases h.cases_groups with
    ⟨l₁, o₁, rfl, hsame⟩ | ⟨l₁, rfl, rfl, hsame⟩ | ⟨g, gs₁, last, rfl, rfl, rfl, rfl⟩
  · exact ⟨_, hsame position' gs', hgroups, rfl, rfl⟩
  · refine ⟨_, hsame position' gs', ?_, rfl, rfl⟩
    rw [List.map_cons, hgroups]
    rfl
  · cases gs' with
    | nil => cases hgroups
    | cons g' gs' =>
      obtain ⟨hg, hgs⟩ := List.cons.inj hgroups
      exact ⟨_, .closes, hgs, hg, rfl⟩

/-- **Characters are read alike in every place.** -/
theorem readFrom_framed {base : List Level} (h : p.readFrom position s = .ok p')
    (hpq : Framed base p q) (position' : Nat) :
    ∃ q', q.readFrom position' s = .ok q' ∧ Framed base p' q' := by
  induction s generalizing p q position position' with
  | nil =>
    cases h
    exact ⟨q, rfl, hpq⟩
  | cons c s ih =>
    obtain ⟨p₁, hc, hrest⟩ := readFrom_cons_eq_ok.mp h
    obtain ⟨q₁, hc', hpq₁⟩ := hc.framed hpq position'
    obtain ⟨q', hrest', hpq'⟩ := ih hrest hpq₁ (position' + 1)
    exact ⟨q', by rw [readFrom_cons hc', hrest'], hpq'⟩

end Progress

/-! ## Inside the open groups -/

/-- The open groups take up the characters `s`, the last of which is the innermost parenthesis. Each
parenthesis stands where its group says, behind characters that alone would be read alike. -/
inductive OpenGroup.Enclosing : List OpenGroup → List Char → Prop
  | nil : Enclosing [] []
  | cons {g : OpenGroup} {gs : List OpenGroup} {s u : List Char} :
      Enclosing gs s → g.position = (s ++ u).length →
      Progress.start.readFrom 0 (u ++ ['(']) = .ok ⟨[⟨u.length, g.outside⟩], .empty, none⟩ →
      Enclosing (g :: gs) (s ++ u ++ ['('])

namespace Progress

variable {p p' : Progress} {c : Char} {s r : List Char}

/-- The characters `s` led to this progress; those inside the innermost group would have led to the
same level and operand alone. -/
def Enclosed (p : Progress) (s : List Char) : Prop :=
  ∃ u v, s = u ++ v ∧ OpenGroup.Enclosing p.groups u ∧
    start.readFrom 0 v = .ok ⟨[], p.level, p.operand⟩

theorem Enclosed.start : Progress.start.Enclosed [] := ⟨[], [], rfl, .nil, rfl⟩

theorem Enclosed.read (hp : p.Enclosed s) (h : Reads s.length p c p') : p'.Enclosed (s ++ [c]) := by
  obtain ⟨gs, l, o⟩ := p
  obtain ⟨u, v, rfl, hgs, hv⟩ := hp
  rcases h.cases_groups with
    ⟨l', o', rfl, hsame⟩ | ⟨l', rfl, rfl, hsame⟩ | ⟨g, gs', last, rfl, rfl, rfl, rfl⟩
  · exact ⟨u, v ++ [c], List.append_assoc u v [c], hgs, readFrom_snoc hv (hsame _ _)⟩
  · have hopen := readFrom_snoc hv (hsame (0 + v.length) [])
    rw [Nat.zero_add] at hopen
    exact ⟨u ++ v ++ ['('], [], by simp, .cons hgs rfl hopen, rfl⟩
  · cases hgs with
    | @cons _ _ u' w hgs hposition hopen =>
      -- what stood inside the group is read again, now inside the one around it
      have hframed : Framed [g.outside] Progress.start ⟨[⟨w.length, g.outside⟩], .empty, none⟩ :=
        ⟨rfl, rfl, rfl⟩
      obtain ⟨q, hq, hgroups, hlevel, hoperand⟩ :=
        readFrom_framed hv hframed (0 + (w ++ ['(']).length)
      obtain ⟨gs₁, l₁, o₁⟩ := q
      dsimp only at hgroups hlevel hoperand
      subst hlevel hoperand
      obtain ⟨g₁, rfl, hg₁⟩ := List.map_eq_singleton_iff.mp hgroups
      have hinside := readFrom_append_eq_ok.mpr ⟨_, hopen, hq⟩
      have hclosed := readFrom_snoc hinside .closes
      rw [hg₁] at hclosed
      exact ⟨u', w ++ ['('] ++ v ++ [')'], by simp, hgs, hclosed⟩

theorem Enclosed.readFrom (hp : p.Enclosed s) (h : p.readFrom s.length r = .ok p') :
    p'.Enclosed (s ++ r) := by
  induction r generalizing p s with
  | nil =>
    cases h
    rwa [List.append_nil]
  | cons c r ih =>
    obtain ⟨p₁, hc, hrest⟩ := readFrom_cons_eq_ok.mp h
    have hlength : (s ++ [c]).length = s.length + 1 := List.length_append
    have hwhole := ih (hp.read hc) (by rw [hlength]; exact hrest)
    rwa [List.append_assoc, List.singleton_append] at hwhole

theorem enclosed_of_readFrom (h : start.readFrom 0 s = .ok p) : p.Enclosed s :=
  Enclosed.start.readFrom h

/-- **What stands inside the innermost group is a pattern**, once its last operand is complete. -/
theorem Enclosed.exists_parse {g : OpenGroup} {gs : List OpenGroup} {l : Level} {o : Operand}
    (h : Enclosed ⟨g :: gs, l, some o⟩ s) :
    ∃ u v, s = u ++ '(' :: v ∧ g.position = u.length ∧ parse v = .ok (l.close o.tree) := by
  obtain ⟨_, v, rfl, hgs, hv⟩ := h
  cases hgs with
  | @cons _ _ s u _ hposition _ =>
    exact ⟨s ++ u, v, by simp, hposition, parse_eq_ok.mpr ⟨_, hv, rfl⟩⟩

end Progress
end PatternAutomata
