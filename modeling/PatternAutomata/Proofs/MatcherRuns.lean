import PatternAutomata.CommandLine.Matcher
import PatternAutomata.Proofs.CompileLanguage
import PatternAutomata.Proofs.Reading
/-!
# The matcher decides membership

`Delivers` says which positionals and flags the arguments of the matcher stand for. The flags may
be anywhere before two lone hyphens, and what is delivered does not depend on where. The matcher
takes its arguments for a request exactly if they deliver two positionals
(`ofArguments_eq_ok_iff`).

Its answer then ends with whether the second of them is in the language of the first, whatever is
shown before (`run_decides`).
-/
namespace PatternAutomata.Matcher

variable {a b p s : String} {args ps : List String} {d d' : Draft} {r : Request}

/-! ## Flags and positionals -/

/-- What can be shown before the result. -/
inductive Flag where
  | tree
  | nfa
  | dfa
deriving DecidableEq

namespace Flag

/-- In the order in which they are shown. -/
def all : List Flag := [tree, nfa, dfa]

def name : Flag → String
  | tree => "tree"
  | nfa => "nfa"
  | dfa => "dfa"

/-- How the flag is given as an argument. -/
def text (f : Flag) : String := "--" ++ f.name

/-- What the flag asks for. -/
def dump (t : Tree) (nfa : Nfa) (dfa : Dfa) : Flag → String
  | .tree => t.dump
  | .nfa => nfa.dump
  | .dfa => dfa.dump

end Flag

variable {f : Flag} {fs : List Flag}

theorem Flag.separator_ne_text (f : Flag) : "--" ≠ f.text := by
  cases f <;> decide

/-- Arguments that cannot be taken for an option: a lone hyphen, and those that begin with none. -/
def IsPositional (a : String) : Prop := a = "-" ∨ a.toList.head? ≠ some '-'

theorem not_isPositional_separator : ¬ IsPositional "--" := by
  rintro (h | h)
  · exact absurd h (by decide)
  · exact h rfl

/-- The arguments stand for these positionals and these flags, each in the order in which they are
given. -/
inductive Delivers : List String → List String → List Flag → Prop
  | nil : Delivers [] [] []
  | positional {a : String} {args ps : List String} {fs : List Flag} :
      IsPositional a → Delivers args ps fs → Delivers (a :: args) (a :: ps) fs
  /-- No flag is given twice. -/
  | flag {f : Flag} {args ps : List String} {fs : List Flag} :
      f ∉ fs → Delivers args ps fs → Delivers (f.text :: args) ps (f :: fs)
  /-- There are only positionals behind two hyphens. -/
  | separator (ps : List String) : Delivers ("--" :: ps) ps []

/-- Flags can always be put in front of arguments that do not give them yet. -/
theorem Delivers.flags_append {gs : List Flag} (h : Delivers args ps gs) (hfs : (fs ++ gs).Nodup) :
    Delivers (fs.map Flag.text ++ args) ps (fs ++ gs) := by
  induction fs with
  | nil => exact h
  | cons f fs ih =>
    obtain ⟨hf, hfs⟩ := List.nodup_cons.mp hfs
    exact .flag hf (ih hfs)

/-! ## How an argument is classified -/

theorem ofString_eq_separator_iff : Argument.ofString a = .separator ↔ a = "--" := by
  constructor
  · intro h
    unfold Argument.ofString at h
    split at h
    next ha => exact String.toList_inj.mp ha
    all_goals cases h
  · rintro rfl
    rfl

theorem ofString_eq_plain_iff : Argument.ofString a = .plain b ↔ a = b ∧ IsPositional a := by
  constructor
  · intro h
    unfold Argument.ofString at h
    split at h
    case h_4 _ hshort =>
      cases h
      refine ⟨rfl, ?_⟩
      rcases ha : a.toList with _ | ⟨c, _ | ⟨letter, rest⟩⟩
      · exact .inr (by simp [ha])
      · by_cases hc : c = '-'
        · exact .inl (String.toList_inj.mp (by rw [ha, hc]; rfl))
        · exact .inr (by simpa [ha] using hc)
      · refine .inr fun hhead => ?_
        rw [ha, List.head?_cons, Option.some_inj] at hhead
        exact hshort letter rest (by rw [ha, hhead])
    all_goals cases h
  · rintro ⟨rfl, rfl | ha⟩
    · rfl
    · unfold Argument.ofString
      split
      case h_4 => rfl
      all_goals simp_all

theorem eq_text_of_ofLong {body : List Char} (h : Argument.ofLong body = .long f.name none) :
    body = f.name.toList := by
  unfold Argument.ofLong at h
  injection h with hname hvalue
  split at hvalue
  next hrest =>
    rw [← hname, String.toList_ofList]
    have hsplit : body.takeWhile (· ≠ '=') ++ body.dropWhile (· ≠ '=') = body :=
      List.takeWhile_append_dropWhile
    rw [hrest, List.append_nil] at hsplit
    exact hsplit.symm
  next => cases hvalue

theorem ofString_eq_long_iff : Argument.ofString a = .long f.name none ↔ a = f.text := by
  constructor
  · intro h
    unfold Argument.ofString at h
    split at h
    case h_2 body _ ha =>
      rw [eq_text_of_ofLong h] at ha
      rw [← String.toList_inj, ha, Flag.text, String.toList_append]
      rfl
    all_goals cases h
  · rintro rfl
    cases f <;> rfl

theorem classify_separator : Argument.classify ("--" :: args) = .separator :: args.map .plain := rfl

theorem classify_cons (ha : a ≠ "--") :
    Argument.classify (a :: args) = Argument.ofString a :: Argument.classify args := by
  rw [Argument.classify]
  split
  next h => exact absurd (ofString_eq_separator_iff.mp h) ha
  next => rfl

/-! ## What a draft takes up -/

namespace Draft

def has (d : Draft) : Flag → Bool
  | .tree => d.tree
  | .nfa => d.nfa
  | .dfa => d.dfa

/-- The draft after more positionals and flags. -/
def plus (d : Draft) (ps : List String) (fs : List Flag) : Draft :=
  ⟨d.positionals ++ ps, d.tree || decide (.tree ∈ fs), d.nfa || decide (.nfa ∈ fs),
    d.dfa || decide (.dfa ∈ fs)⟩

@[simp] theorem plus_nil : d.plus [] [] = d := by
  simp [plus]

theorem plus_positional : (d.plus [a] []).plus ps fs = d.plus (a :: ps) fs := by
  simp [plus]

theorem plus_flag : (d.plus [] [f]).plus ps fs = d.plus ps (f :: fs) := by
  simp [plus, Bool.or_assoc]

theorem length_plus : (d.plus ps fs).positionals.length = d.positionals.length + ps.length :=
  List.length_append

@[simp] theorem has_plus {g : Flag} : (d.plus ps fs).has g = (d.has g || decide (g ∈ fs)) := by
  cases g <;> rfl

theorem add_flag :
    d.add (.long f.name none) = if d.has f = true then .error .usage else .ok (d.plus [] [f]) := by
  cases f <;> simp [add, has, plus, Flag.name]

/-- **What one argument does to a draft**, if it is taken. -/
theorem add_eq_ok {x : Argument} : d.add x = .ok d' ↔
    (x = .separator ∧ d' = d) ∨
    (∃ a, x = .plain a ∧ d.positionals.length < 2 ∧ d' = d.plus [a] []) ∨
    ∃ f : Flag, x = .long f.name none ∧ d.has f = false ∧ d' = d.plus [] [f] := by
  have hflag : ∀ f : Flag, d.add (.long f.name none) = .ok d' →
      d.has f = false ∧ d' = d.plus [] [f] := by
    intro f h
    rw [add_flag] at h
    split at h
    next => cases h
    next hf =>
      cases h
      exact ⟨Bool.eq_false_iff.mpr hf, rfl⟩
  constructor
  · intro h
    unfold add at h
    split at h
    case h_1 =>
      cases h
      exact .inl ⟨rfl, rfl⟩
    case h_2 text =>
      split at h
      next hlength =>
        cases h
        exact .inr (.inl ⟨text, rfl, hlength, by simp [plus]⟩)
      next => cases h
    case h_3 => exact .inr (.inr ⟨.tree, rfl, hflag .tree h⟩)
    case h_4 => exact .inr (.inr ⟨.nfa, rfl, hflag .nfa h⟩)
    case h_5 => exact .inr (.inr ⟨.dfa, rfl, hflag .dfa h⟩)
    all_goals cases h
  · rintro (⟨rfl, rfl⟩ | ⟨a, rfl, hlength, rfl⟩ | ⟨f, rfl, hf, rfl⟩)
    · rfl
    · simp [add, hlength, plus]
    · rw [add_flag, hf, if_neg Bool.false_ne_true]

theorem foldlM_cons_eq_ok {x : Argument} {xs : List Argument} :
    (x :: xs).foldlM add d = .ok d' ↔ ∃ d₁, d.add x = .ok d₁ ∧ xs.foldlM add d₁ = .ok d' := by
  rw [List.foldlM_cons, bind_eq_ok]

theorem foldlM_plain (hd : d.positionals.length ≤ 2) :
    (ps.map Argument.plain).foldlM add d = .ok d' ↔
      d.positionals.length + ps.length ≤ 2 ∧ d' = d.plus ps [] := by
  induction ps generalizing d with
  | nil =>
    rw [plus_nil]
    constructor
    · rintro ⟨⟩
      exact ⟨hd, rfl⟩
    · rintro ⟨-, rfl⟩
      rfl
  | cons a ps ih =>
    rw [List.map_cons, foldlM_cons_eq_ok]
    constructor
    · rintro ⟨d₁, hadd, hrest⟩
      rcases add_eq_ok.mp hadd with ⟨⟨⟩, -⟩ | ⟨_, ⟨⟩, hlength, rfl⟩ | ⟨f, ⟨⟩, -⟩
      rw [ih (by rw [length_plus]; exact hlength), plus_positional, length_plus] at hrest
      refine ⟨?_, hrest.2⟩
      have hfits := hrest.1
      simp only [List.length_cons, List.length_nil] at hfits ⊢
      omega
    · rintro ⟨hlength, rfl⟩
      rw [List.length_cons] at hlength
      have hfirst : d.positionals.length < 2 := by omega
      refine ⟨_, add_eq_ok.mpr (.inr (.inl ⟨a, rfl, hfirst, rfl⟩)), ?_⟩
      rw [ih (by rw [length_plus]; exact hfirst), plus_positional, length_plus]
      refine ⟨?_, rfl⟩
      simp only [List.length_cons, List.length_nil]
      omega

/-- Arguments that deliver no more positionals than there is room for, and no flags that are there
already, are all taken. -/
theorem foldlM_of_delivers (h : Delivers args ps fs)
    (hlength : d.positionals.length + ps.length ≤ 2) (hfs : ∀ f ∈ fs, d.has f = false) :
    (Argument.classify args).foldlM add d = .ok (d.plus ps fs) := by
  induction h generalizing d with
  | nil =>
    rw [plus_nil]
    rfl
  | @positional a args ps fs ha _ ih =>
    have hplain : Argument.ofString a = .plain a := ofString_eq_plain_iff.mpr ⟨rfl, ha⟩
    have hne : a ≠ "--" := fun heq => not_isPositional_separator (heq ▸ ha)
    rw [List.length_cons] at hlength
    have hfirst : d.positionals.length < 2 := by omega
    have hrest : (d.plus [a] []).positionals.length + ps.length ≤ 2 := by
      simp only [length_plus, List.length_cons, List.length_nil]
      omega
    rw [classify_cons hne, foldlM_cons_eq_ok, ← plus_positional]
    exact ⟨_, add_eq_ok.mpr (.inr (.inl ⟨a, hplain, hfirst, rfl⟩)), ih hrest (by simpa using hfs)⟩
  | @flag f args ps fs hnew _ ih =>
    have hlong : Argument.ofString f.text = .long f.name none := ofString_eq_long_iff.mpr rfl
    obtain ⟨hf, hfs⟩ := List.forall_mem_cons.mp hfs
    have hrest : ∀ g ∈ fs, (d.plus [] [f]).has g = false := by
      intro g hg
      have hne : g ≠ f := ne_of_mem_of_not_mem hg hnew
      simp [hfs g hg, hne]
    rw [classify_cons f.separator_ne_text.symm, foldlM_cons_eq_ok, ← plus_flag]
    exact ⟨_, add_eq_ok.mpr (.inr (.inr ⟨f, hlong, hf, rfl⟩)), ih (by rwa [length_plus]) hrest⟩
  | separator ps =>
    have hd : d.positionals.length ≤ 2 := by omega
    rw [classify_separator]
    exact (foldlM_plain hd).mpr ⟨hlength, rfl⟩

/-- Arguments that are all taken deliver what the draft is filled up with. -/
theorem delivers_of_foldlM (hd : d.positionals.length ≤ 2)
    (h : (Argument.classify args).foldlM add d = .ok d') :
    ∃ ps fs, Delivers args ps fs ∧ (∀ f ∈ fs, d.has f = false) ∧ d' = d.plus ps fs := by
  induction args generalizing d with
  | nil =>
    cases h
    exact ⟨[], [], .nil, by simp, plus_nil.symm⟩
  | cons a args ih =>
    by_cases ha : a = "--"
    · subst ha
      obtain ⟨-, rfl⟩ := (foldlM_plain hd).mp h
      exact ⟨args, [], .separator args, by simp, rfl⟩
    · rw [classify_cons ha, foldlM_cons_eq_ok] at h
      obtain ⟨d₁, hadd, hrest⟩ := h
      rcases add_eq_ok.mp hadd with
        ⟨hseparator, -⟩ | ⟨_, hplain, hlength, rfl⟩ | ⟨f, hlong, hf, rfl⟩
      · exact absurd (ofString_eq_separator_iff.mp hseparator) ha
      · obtain ⟨rfl, hpositional⟩ := ofString_eq_plain_iff.mp hplain
        obtain ⟨ps, fs, h, hfs, rfl⟩ := ih (by rw [length_plus]; exact hlength) hrest
        exact ⟨a :: ps, fs, .positional hpositional h, by simpa using hfs, plus_positional⟩
      · obtain rfl := ofString_eq_long_iff.mp hlong
        obtain ⟨ps, fs, h, hfs, rfl⟩ := ih (by rwa [length_plus]) hrest
        -- the flag is up now, so the rest cannot give it again
        simp only [has_plus, Bool.or_eq_false_iff, decide_eq_false_iff_not] at hfs
        have hnew : f ∉ fs := fun hmem => (hfs f hmem).2 (List.mem_singleton_self f)
        have hall : ∀ g ∈ f :: fs, d.has g = false :=
          List.forall_mem_cons.mpr ⟨hf, fun g hg => (hfs g hg).1⟩
        exact ⟨ps, f :: fs, .flag hnew h, hall, plus_flag⟩

theorem finish_eq_ok : d.finish = .ok r ↔
    ∃ p s, d.positionals = [p, s] ∧ r = ⟨p.toList, s.toList, d.tree, d.nfa, d.dfa⟩ := by
  unfold finish
  split
  next p s h =>
    rw [h]
    constructor
    · rintro ⟨⟩
      exact ⟨p, s, rfl, rfl⟩
    · rintro ⟨p', s', ⟨⟩, rfl⟩
      rfl
  next h =>
    constructor
    · rintro ⟨⟩
    · rintro ⟨p, s, hps, -⟩
      exact absurd hps (h p s)

end Draft

/-- **The arguments make a request exactly if they deliver two positionals**, and it does not depend
on where the flags are. -/
theorem ofArguments_eq_ok_iff : Request.ofArguments args = .ok r ↔
    ∃ p s fs, Delivers args [p, s] fs ∧
      r = ⟨p.toList, s.toList, decide (.tree ∈ fs), decide (.nfa ∈ fs), decide (.dfa ∈ fs)⟩ := by
  rw [Request.ofArguments, bind_eq_ok]
  constructor
  · rintro ⟨d, hd, hr⟩
    have hroom : Draft.empty.positionals.length ≤ 2 := Nat.zero_le 2
    obtain ⟨ps, fs, h, -, rfl⟩ := Draft.delivers_of_foldlM hroom hd
    obtain ⟨p, s, rfl, rfl⟩ := Draft.finish_eq_ok.mp hr
    exact ⟨p, s, fs, h, rfl⟩
  · rintro ⟨p, s, fs, h, rfl⟩
    have hempty : ∀ f ∈ fs, Draft.empty.has f = false := by
      intro f _
      cases f <;> rfl
    exact ⟨_, Draft.foldlM_of_delivers h (Nat.le_refl 2) hempty, rfl⟩

/-! ## The answer -/

/-- What is shown for the flags `fs`, in the fixed order, with a line end after each. -/
def shown (fs : List Flag) (t : Tree) (nfa : Nfa) (dfa : Dfa) : String :=
  unlines ((Flag.all.filter (· ∈ fs)).map (Flag.dump t nfa dfa))

theorem unlines_filter_cons {g : Flag} {gs : List Flag} {dump : Flag → String} :
    unlines (((g :: gs).filter (· ∈ fs)).map dump) =
      textIf (decide (g ∈ fs)) (dump g) ++ unlines ((gs.filter (· ∈ fs)).map dump) := by
  by_cases h : g ∈ fs
  · simp [textIf, unlines, h]
  · simp [textIf, h]

theorem shown_eq {t : Tree} {nfa : Nfa} {dfa : Dfa} : shown fs t nfa dfa =
    textIf (decide (.tree ∈ fs)) t.dump ++ textIf (decide (.nfa ∈ fs)) nfa.dump ++
      textIf (decide (.dfa ∈ fs)) dfa.dump := by
  have hnil : unlines ((([] : List Flag).filter (· ∈ fs)).map (Flag.dump t nfa dfa)) = "" := rfl
  rw [shown, Flag.all, unlines_filter_cons, unlines_filter_cons, unlines_filter_cons, hnil,
    String.append_empty, ← String.append_assoc]
  rfl

theorem run_of_delivers (h : Delivers args [p, s] fs) : run args = Request.answer
    ⟨p.toList, s.toList, decide (.tree ∈ fs), decide (.nfa ∈ fs), decide (.dfa ∈ fs)⟩ := by
  rw [run, ofArguments_eq_ok_iff.mpr ⟨p, s, fs, h, rfl⟩]

theorem answer_of_parse {t : Tree} (ht : parse r.pattern = .ok t) : r.answer =
    .success (textIf r.showTree t.dump ++ textIf r.showNfa (Nfa.ofTree t).dump ++
      textIf r.showDfa (Dfa.ofTree t).dump ++ "Result: " ++
      ((Dfa.ofTree t).simulate r.input).name ++ "\n") := by
  rw [Request.answer, ht]
  rfl

/-- **The matcher tells whether the input is in the language of the pattern**, and which flags are
given decides only what is shown before. For each pattern, input and set of flags there are
arguments that deliver them, and wherever the flags are, the following holds. If the pattern parses,
the program ends well, and it has written the dumps asked for, in the order tree, nondeterministic
and deterministic automaton, and then the result; the automaton shown is the one that decided. If
the pattern does not parse, the program fails and has written nothing. -/
theorem run_decides (p s : String) (fs : List Flag) (hfs : fs.Nodup) :
    (∃ args, Delivers args [p, s] fs) ∧ ∀ args, Delivers args [p, s] fs →
      (∀ t, parse p.toList = .ok t → ∃ d, compile p.toList = .ok d ∧ (run args).code = 0 ∧
        (t.Matches s.toList →
          (run args).stdout = shown fs t (.ofTree t) d ++ "Result: Accepted\n") ∧
        (¬ t.Matches s.toList →
          (run args).stdout = shown fs t (.ofTree t) d ++ "Result: Rejected\n")) ∧
      ∀ e, parse p.toList = .error e → (run args).code = 1 ∧ (run args).stdout = "" := by
  constructor
  · have hbehind : Delivers ["--", p, s] [p, s] [] := .separator [p, s]
    have hdelivers : Delivers (fs.map Flag.text ++ ["--", p, s]) [p, s] (fs ++ []) :=
      hbehind.flags_append (by rwa [List.append_nil])
    rw [List.append_nil] at hdelivers
    exact ⟨_, hdelivers⟩
  · intro args h
    rw [run_of_delivers h]
    refine ⟨fun t ht => ⟨.ofTree t, compile_of_parse ht, ?_⟩, fun e he => ?_⟩
    · rw [answer_of_parse ht, shown_eq]
      refine ⟨rfl, fun haccepted => ?_, fun hrejected => ?_⟩
      · rw [Dfa.simulate_ofTree.mpr haccepted]
        simp only [Exit.success, Outcome.name, String.append_assoc]
        rfl
      · rw [Dfa.rejected_ofTree.mpr hrejected]
        simp only [Exit.success, Outcome.name, String.append_assoc]
        rfl
    · rw [Request.answer, he]
      exact ⟨rfl, rfl⟩

/-- A flag between the pattern and the input and another one behind both. -/
theorem run_decides_between :
    [Flag.dfa, .tree].Nodup ∧
    Delivers ["a*", "--dfa", "aa", "--tree"] ["a*", "aa"] [.dfa, .tree] ∧
    ∃ d, compile "a*".toList = .ok d ∧ (run ["a*", "--dfa", "aa", "--tree"]).stdout =
      " *\n         a\n" ++ "\n" ++ d.dump ++ "\n" ++ "Result: Accepted\n" := by
  have hfs : [Flag.dfa, .tree].Nodup := by decide
  have hdelivers : Delivers ["a*", "--dfa", "aa", "--tree"] ["a*", "aa"] [.dfa, .tree] := by
    show Delivers ["a*", Flag.text .dfa, "aa", Flag.text .tree] _ _
    have htree : Delivers [Flag.text .tree] [] [.tree] := .flag (by decide) .nil
    have hinput : Delivers ["aa", Flag.text .tree] ["aa"] [.tree] :=
      .positional (.inr (by decide)) htree
    exact .positional (.inr (by decide)) (.flag (by decide) hinput)
  have hparse : parse "a*".toList = .ok (.star (.literal 'a')) := rfl
  have hmatches : (Tree.star (.literal 'a')).Matches "aa".toList :=
    .again (.literal 'a') (.again (.literal 'a') .finished)
  have htext : (Tree.star (.literal 'a')).dump = " *\n         a\n" := by decide
  obtain ⟨-, hruns⟩ := run_decides "a*" "aa" [.dfa, .tree] hfs
  obtain ⟨d, hd, -, haccepted, -⟩ := (hruns _ hdelivers).1 _ hparse
  refine ⟨hfs, hdelivers, d, hd, ?_⟩
  rw [haccepted hmatches, shown_eq, htext]
  simp [textIf, String.append_assoc]

end PatternAutomata.Matcher
