import Mathlib.Data.List.TakeWhile
import PatternAutomata.Text.Layout
/-!
# Texts that can be taken apart

What begins a text can be told from what follows if the follower begins with a character that the
beginning cannot hold (`append_inj_of_span`): a line ends at the line end (`unlines_inj`), a number
before the first character that is no digit (`repr_append_inj`). So texts of such parts are equal
only if their parts are.
-/
namespace PatternAutomata

variable {n m : Nat} {u u' v v' : List Char} {s s' : String} {lines lines' : List String}

/-! ## Where a part ends -/

theorem append_inj_of_span {p : Char → Bool} (hu : ∀ c ∈ u, p c = true) (hu' : ∀ c ∈ u', p c = true)
    (hv : v.head?.any p = false) (hv' : v'.head?.any p = false) (h : u ++ v = u' ++ v') :
    u = u' ∧ v = v' := by
  have hspan : ∀ {u v : List Char}, (∀ c ∈ u, p c = true) → v.head?.any p = false →
      (u ++ v).takeWhile p = u := by
    intro u v hu hv
    rw [List.takeWhile_append_of_pos hu]
    cases v with
    | nil => simp
    | cons c v => simp_all
  obtain rfl : u = u' := by rw [← hspan hu hv, h, hspan hu' hv']
  exact ⟨rfl, List.append_cancel_left h⟩

/-! ## Lines -/

/-- A text without line ends. -/
def IsLine (s : String) : Prop := '\n' ∉ s.toList

@[simp] theorem isLine_append : IsLine (s ++ s') ↔ IsLine s ∧ IsLine s' := by
  simp [IsLine]

@[simp] theorem isLine_singleton {c : Char} : IsLine (String.singleton c) ↔ c ≠ '\n' := by
  simp [IsLine, eq_comm]

@[simp] theorem isLine_spaces : IsLine (spaces n) := by
  simp [IsLine, spaces]

theorem toList_unlines (lines : List String) :
    (unlines lines).toList = lines.flatMap fun line => line.toList ++ ['\n'] := by
  simp [unlines, String.toList_join, List.flatMap_map]

/-- **A text tells its lines.** -/
theorem unlines_inj (h : ∀ line ∈ lines, IsLine line) (h' : ∀ line ∈ lines', IsLine line) :
    unlines lines = unlines lines' ↔ lines = lines' := by
  refine ⟨fun htext => ?_, congrArg unlines⟩
  rw [← String.toList_inj, toList_unlines, toList_unlines] at htext
  induction lines generalizing lines' with
  | nil =>
    cases lines' with
    | nil => rfl
    | cons line' lines' => simp at htext
  | cons line lines ih =>
    cases lines' with
    | nil => simp at htext
    | cons line' lines' =>
      have hline : ∀ {l : String}, IsLine l → ∀ c ∈ l.toList, (c != '\n') = true := by
        intro l hl c hc
        exact bne_iff_ne.mpr (ne_of_mem_of_not_mem hc hl)
      simp only [List.flatMap_cons, List.append_assoc] at htext
      simp only [List.forall_mem_cons] at h h'
      obtain ⟨hfirst, hrest⟩ :=
        append_inj_of_span (hline h.1) (hline h'.1) (by simp) (by simp) htext
      rw [String.toList_inj.mp hfirst, ih h.2 h'.2 (List.append_cancel_left hrest)]

/-! ## Numbers -/

theorem isDigit_of_mem_repr {c : Char} (h : c ∈ n.repr.toList) : c.isDigit = true := by
  rw [Nat.toList_repr] at h
  exact Nat.isDigit_of_mem_toDigits (by decide) (by decide) h

@[simp] theorem newline_notMem_toDigits : '\n' ∉ Nat.toDigits 10 n := by
  rw [← Nat.toList_repr]
  intro h
  have hdigit := isDigit_of_mem_repr h
  simp at hdigit

theorem repr_inj : n.repr = m.repr ↔ n = m := by
  refine ⟨fun h => ?_, congrArg Nat.repr⟩
  have hvalue := congrArg (fun s => Nat.ofDigitChars 10 s.toList 0) h
  simpa only [Nat.toList_repr, Nat.ofDigitChars_ten_toDigits] using hvalue

/-- **A number can be told from what follows it.** -/
theorem repr_append_inj (hv : v.head?.any Char.isDigit = false)
    (hv' : v'.head?.any Char.isDigit = false) (h : n.repr.toList ++ v = m.repr.toList ++ v') :
    n = m ∧ v = v' := by
  obtain ⟨hdigits, hrest⟩ := append_inj_of_span (fun _ => isDigit_of_mem_repr)
    (fun _ => isDigit_of_mem_repr) hv hv' h
  exact ⟨repr_inj.mp (String.toList_inj.mp hdigits), hrest⟩

/-- A list of numbers with a space before each. -/
theorem join_spaced_inj {ns ms : List Nat} :
    String.join (ns.map fun n => " " ++ n.repr) = String.join (ms.map fun n => " " ++ n.repr) ↔
      ns = ms := by
  have htoList : ∀ ns : List Nat, (String.join (ns.map fun n => " " ++ n.repr)).toList =
      ns.flatMap fun n => ' ' :: n.repr.toList := by
    intro ns
    simp [String.toList_join, List.flatMap_map]
  have hspace : ∀ ns : List Nat,
      (ns.flatMap fun n => ' ' :: n.repr.toList).head?.any Char.isDigit = false := by
    intro ns
    cases ns <;> simp
  rw [← String.toList_inj, htoList, htoList]
  refine ⟨fun h => ?_, fun h => by rw [h]⟩
  induction ns generalizing ms with
  | nil =>
    cases ms with
    | nil => rfl
    | cons m ms => simp at h
  | cons n ns ih =>
    cases ms with
    | nil => simp at h
    | cons m ms =>
      simp only [List.flatMap_cons, List.cons_append, List.cons.injEq, true_and] at h
      obtain ⟨rfl, hrest⟩ := repr_append_inj (hspace ns) (hspace ms) h
      rw [ih hrest]

end PatternAutomata
