import PatternAutomata.Generate.Pattern
import PatternAutomata.Proofs.Answers
import PatternAutomata.Proofs.ParseGrammar
/-!
# Drawn patterns parse

Whatever is drawn, a phrase derives its tree from the rule that it was drawn by
(`always_drawPhrase`). So a drawn pattern parses, and to the tree of the choices that were made
(`always_drawPattern`).
-/
namespace PatternAutomata

/-- The text of `p` derives its tree from `rule`. -/
def Phrase.Derived (rule : Rule) (p : Phrase) : Prop := Derives rule p.text p.tree

section
variable {literals : List Char}

theorem ne_nil_of_areLiterals (h : areLiterals literals = true) : literals ≠ [] := by
  rintro rfl
  cases h

theorem isLiteralChar_of_mem (h : areLiterals literals = true) {c : Char} (hc : c ∈ literals) :
    isLiteralChar c = true := by
  simp only [areLiterals, Bool.and_eq_true, List.all_eq_true] at h
  exact h.2 c hc

theorem always_drawLiteral (h : areLiterals literals = true) :
    (drawPhrase.drawLiteral literals).Always (Phrase.Derived .atom) := by
  refine (Draw.always_pick (ne_nil_of_areLiterals h)).bind fun c hc => ?_
  exact .literal (isLiteralChar_of_mem h hc)

/-- A phrase is drawn from the rule it is asked for: in each case the phrases of its parts are put
together as the rule says. -/
theorem always_drawPhrase (h : areLiterals literals = true) (rule : Rule) (depth : Nat) :
    (drawPhrase literals rule depth).Always (Phrase.Derived rule) := by
  induction rule, depth using drawPhrase.induct with
  | case1 ih =>
    rw [drawPhrase]
    exact ih.mono fun p hp => .oneBranch hp
  | case2 depth ihFirst ihRest =>
    rw [drawPhrase]
    refine ihFirst.bind fun first hfirst => (Draw.always_oneIn (by decide)).bind fun more _ => ?_
    cases more with
    | true => exact ihRest.bind fun rest hrest => .branch hfirst hrest
    | false => exact .oneBranch hfirst
  | case3 ih =>
    rw [drawPhrase]
    exact ih.mono fun p hp => .oneItem hp
  | case4 depth ihFirst ihRest =>
    rw [drawPhrase]
    refine ihFirst.bind fun first hfirst => (Draw.always_oneIn (by decide)).bind fun more _ => ?_
    cases more with
    | true => exact ihRest.bind fun rest hrest => .item hfirst hrest
    | false => exact .oneItem hfirst
  | case5 depth ih =>
    rw [drawPhrase]
    refine ih.bind fun atom hatom => ?_
    refine Draw.always_bind.mpr ((Draw.always_inRange (by decide)).mpr fun v _ _ => ?_)
    match v with
    | 0 => exact .star hatom
    | 1 => exact .optional hatom
    | _ + 2 => exact .plain hatom
  | case6 =>
    rw [drawPhrase]
    exact always_drawLiteral h
  | case7 depth ih =>
    rw [drawPhrase]
    refine (Draw.always_oneIn (by decide)).bind fun grouped _ => ?_
    cases grouped with
    | true => exact ih.bind fun body hbody => .group hbody
    | false => exact always_drawLiteral h

/-- **A drawn pattern parses**, to the tree it was drawn with. -/
theorem always_drawPattern (h : areLiterals literals = true) (maxDepth : Nat) :
    (drawPattern maxDepth literals).Always fun p => parse p.text = .ok p.tree := by
  rw [drawPattern, if_pos h]
  exact (always_drawPhrase h .alternative maxDepth).mono fun p hp => parse_of_derives hp

end
end PatternAutomata
