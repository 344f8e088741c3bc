/-!
# Sets of symbols

Finite sets of characters, listed in ascending order of code points without repetition, so equal
sets are equal values.
-/
namespace PatternAutomata

structure SymbolSet where
  toList : List Char
  ascending : toList.Pairwise (· < ·)
deriving DecidableEq

namespace SymbolSet

/-- `c` put into its place in an ascending list that may hold it already. -/
def place (c : Char) : List Char → List Char
  | [] => [c]
  | d :: ds => if c < d then c :: d :: ds else if c = d then d :: ds else d :: place c ds

@[simp] theorem mem_place {c x : Char} {l : List Char} : x ∈ place c l ↔ x = c ∨ x ∈ l := by
  induction l with
  | nil => simp [place]
  | cons d ds ih => grind [place]

theorem pairwise_place {c : Char} {l : List Char} (h : l.Pairwise (· < ·)) :
    (place c l).Pairwise (· < ·) := by
  induction l with
  | nil => simp [place]
  | cons d ds ih =>
    obtain ⟨hd, hds⟩ := List.pairwise_cons.mp h
    unfold place
    split
    · next hc =>
      refine List.pairwise_cons.mpr ⟨fun x hx => ?_, h⟩
      rcases List.mem_cons.mp hx with rfl | hx
      · exact hc
      · exact Char.lt_trans hc (hd x hx)
    · split
      · exact h
      · next hc hne =>
        refine List.pairwise_cons.mpr ⟨fun x hx => ?_, ih hds⟩
        rcases mem_place.mp hx with rfl | hx
        · exact Char.not_le.mp fun hle => hne (Char.le_antisymm (Char.not_lt.mp hc) hle).symm
        · exact hd x hx

instance : Membership Char SymbolSet := ⟨fun s c => c ∈ s.toList⟩

instance (c : Char) (s : SymbolSet) : Decidable (c ∈ s) :=
  inferInstanceAs (Decidable (c ∈ s.toList))

def empty : SymbolSet := ⟨[], .nil⟩

def insert (c : Char) (s : SymbolSet) : SymbolSet :=
  ⟨place c s.toList, pairwise_place s.ascending⟩

def ofList (l : List Char) : SymbolSet := l.foldr insert empty

def union (s t : SymbolSet) : SymbolSet := s.toList.foldr insert t

@[simp] theorem mem_toList {c : Char} {s : SymbolSet} : c ∈ s.toList ↔ c ∈ s := Iff.rfl

@[simp] theorem not_mem_empty (c : Char) : c ∉ empty := List.not_mem_nil

@[simp] theorem mem_insert {c d : Char} {s : SymbolSet} : c ∈ s.insert d ↔ c = d ∨ c ∈ s :=
  mem_place

theorem mem_foldr_insert {c : Char} {l : List Char} {s : SymbolSet} :
    c ∈ l.foldr insert s ↔ c ∈ l ∨ c ∈ s := by
  induction l with
  | nil => simp
  | cons d ds ih => simp [ih, or_assoc]

@[simp] theorem mem_ofList {c : Char} {l : List Char} : c ∈ ofList l ↔ c ∈ l := by
  simp [ofList, mem_foldr_insert]

@[simp] theorem mem_union {c : Char} {s t : SymbolSet} : c ∈ s.union t ↔ c ∈ s ∨ c ∈ t := by
  simp [union, mem_foldr_insert]

/-- Two ascending lists with the same members are the same list. -/
theorem eq_of_ascending {l m : List Char} (hl : l.Pairwise (· < ·)) (hm : m.Pairwise (· < ·))
    (h : ∀ c, c ∈ l ↔ c ∈ m) : l = m := by
  induction l generalizing m with
  | nil =>
    cases m with
    | nil => rfl
    | cons d ds => exact absurd ((h d).mpr (by simp)) (by simp)
  | cons c cs ih =>
    cases m with
    | nil => exact absurd ((h c).mp (by simp)) (by simp)
    | cons d ds =>
      obtain ⟨hc, hcs⟩ := List.pairwise_cons.mp hl
      obtain ⟨hd, hds⟩ := List.pairwise_cons.mp hm
      have hcd : c = d := by
        rcases List.mem_cons.mp ((h c).mp (by simp)) with e | hx
        · exact e
        · rcases List.mem_cons.mp ((h d).mpr (by simp)) with e | hy
          · exact e.symm
          · exact absurd (Char.lt_trans (hd c hx) (hc d hy)) (Char.lt_irrefl d)
      subst hcd
      congr 1
      refine ih hcs hds fun x => ⟨fun hx => ?_, fun hx => ?_⟩
      · rcases List.mem_cons.mp ((h x).mp (List.mem_cons_of_mem _ hx)) with rfl | hy
        · exact absurd (hc x hx) (Char.lt_irrefl x)
        · exact hy
      · rcases List.mem_cons.mp ((h x).mpr (List.mem_cons_of_mem _ hx)) with rfl | hy
        · exact absurd (hd x hx) (Char.lt_irrefl x)
        · exact hy

@[ext] theorem ext {s t : SymbolSet} (h : ∀ c, c ∈ s ↔ c ∈ t) : s = t := by
  cases s; cases t
  congr
  exact eq_of_ascending ‹_› ‹_› h

end SymbolSet
end PatternAutomata
