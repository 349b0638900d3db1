import QueryBindings.Proofs.Document.Offsets
import QueryBindings.Proofs.Text.Pieces
/-!
Positions and offsets.

A text has a position if it has enough line feeds for the line and enough characters on that line
for the column. These positions and the places between characters are the same in two notations:
every such position has an offset, every place has one position, and both come in the same order.
-/
namespace QueryBindings

open Text

namespace Text

def lastLine (cs : List Char) : List Char := (cs.reverse.takeWhile (· ≠ '\n')).reverse

@[simp] theorem lastLine_nil : lastLine [] = [] := rfl

@[simp] theorem lastLine_feed (cs : List Char) : lastLine (cs ++ ['\n']) = [] := by simp [lastLine]

theorem lastLine_append {bs : List Char} (as : List Char) (h : '\n' ∉ bs) :
    lastLine (as ++ bs) = lastLine as ++ bs := by
  have hbs : ∀ c ∈ bs.reverse, decide (c ≠ '\n') = true := by
    intro c hc
    rw [decide_eq_true_eq]
    rintro rfl
    exact h (List.mem_reverse.mp hc)
  rw [lastLine, lastLine, List.reverse_append, List.takeWhile_append_of_pos hbs,
    List.reverse_append, List.reverse_reverse]

/-- The line behind a number of line feeds, up to the next one or the end. -/
def lineAfter (cs : List Char) (feeds : Nat) : List Char := (pieces '\n' cs)[feeds]?.getD []

end Text

namespace Position

/-- The position of the place behind a text. -/
def behind (cs : List Char) : Position := ⟨cs.count '\n' + 1, (lastLine cs).length + 1⟩

theorem afterLexeme_eq_behind (cs : List Char) : start.afterLexeme cs = behind cs := by
  obtain h | ⟨before, l, rfl, h⟩ := exists_last_line cs
  · have hposition : start.afterLexeme ([] ++ cs) = _ := afterLexeme_line (Or.inl rfl) h
    rw [List.nil_append] at hposition
    rw [hposition, behind, List.count_nil, List.count_eq_zero.mpr h, ← List.nil_append cs,
      lastLine_append [] h, lastLine_nil]
  · have hcs : before ++ '\n' :: l = before ++ ['\n'] ++ l := by simp
    have hcount : (before ++ ['\n'] ++ l).count '\n' = (before ++ ['\n']).count '\n' := by
      rw [List.count_append, List.count_eq_zero.mpr h, Nat.add_zero]
    rw [hcs, afterLexeme_line (Or.inr ⟨before, rfl⟩) h, behind, lastLine_append _ h, lastLine_feed,
      List.nil_append, hcount]

structure In (p : Position) (cs : List Char) : Prop where
  line_pos : 1 ≤ p.line
  column_pos : 1 ≤ p.column
  feeds : p.line - 1 ≤ cs.count '\n'
  characters : p.column - 1 ≤ (lineAfter cs (p.line - 1)).length

instance (p : Position) (cs : List Char) : Decidable (p.In cs) :=
  decidable_of_iff (1 ≤ p.line ∧ 1 ≤ p.column ∧ p.line - 1 ≤ cs.count '\n' ∧
      p.column - 1 ≤ (lineAfter cs (p.line - 1)).length)
    ⟨fun ⟨h₁, h₂, h₃, h₄⟩ => ⟨h₁, h₂, h₃, h₄⟩, fun ⟨h₁, h₂, h₃, h₄⟩ => ⟨h₁, h₂, h₃, h₄⟩⟩

def Before (p q : Position) : Prop := p.line < q.line ∨ p.line = q.line ∧ p.column < q.column

theorem Before.asymm {p q : Position} (h : p.Before q) : ¬q.Before p := by
  unfold Before at h ⊢
  omega

theorem Before.ne {p q : Position} (h : p.Before q) : p ≠ q := by
  rintro rfl
  exact h.asymm h

/-- A place further on has a later position. -/
theorem before_behind_append {bs : List Char} (as : List Char) (h : bs ≠ []) :
    (behind as).Before (behind (as ++ bs)) := by
  by_cases hfeed : '\n' ∈ bs
  · left
    have := List.count_pos_iff.mpr hfeed
    simp only [behind, List.count_append]
    omega
  · right
    have := List.length_pos_iff.mpr h
    rw [behind, behind, lastLine_append as hfeed, List.count_append, List.count_eq_zero.mpr hfeed,
      List.length_append]
    dsimp only
    omega

end Position

namespace Text

open Position (behind)

/-! ### Which positions have an offset -/

theorem isSome_columnOffset? (n : Nat) (cs : List Char) :
    (columnOffset? n cs).isSome ↔ n ≤ (cs.takeWhile (· ≠ '\n')).length := by
  induction cs generalizing n with
  | nil => cases n <;> simp [columnOffset?]
  | cons c cs ih =>
    cases n with
    | zero => simp [columnOffset?]
    | succ n => by_cases hc : c = '\n' <;> simp [columnOffset?, hc, ih]

/-- A column of a line has an offset if and only if the text has the line, and the line the column.
-/
theorem isSome_lineOffset? (column n : Nat) (cs : List Char) :
    (lineOffset? column n cs).isSome ↔ n ≤ cs.count '\n' ∧ column ≤ (lineAfter cs n).length := by
  induction cs generalizing n with
  | nil => cases n <;> simp [lineOffset?, isSome_columnOffset?, lineAfter]
  | cons c cs ih =>
    cases n with
    | zero =>
      have hline : lineAfter (c :: cs) 0 = (c :: cs).takeWhile (· ≠ '\n') := by
        rw [lineAfter, ← List.head?_eq_getElem?, head?_pieces, Option.getD_some]
      simp [lineOffset?, isSome_columnOffset?, hline]
    | succ n =>
      rw [lineOffset?, Option.isSome_map, ih]
      by_cases hc : c = '\n'
      · simp [hc, lineAfter]
      · obtain ⟨piece, rest, hcs, hpieces⟩ := exists_pieces_cons hc cs
        simp [hc, lineAfter, hcs, hpieces]

/-- A position has an offset if and only if the text has it. -/
theorem exists_offset?_iff {cs : List Char} {p : Position} :
    (∃ n, offset? cs p = some n) ↔ p.In cs := by
  rw [← Option.isSome_iff_exists, offset?]
  split
  · rename_i hzero
    constructor
    · intro h
      exact absurd h (by simp)
    · intro h
      have := h.line_pos
      have := h.column_pos
      omega
  · rename_i hpos
    rw [isSome_lineOffset?]
    constructor
    · rintro ⟨hfeeds, hcharacters⟩
      exact ⟨by omega, by omega, hfeeds, hcharacters⟩
    · intro h
      exact ⟨h.feeds, h.characters⟩

/-! ### Offsets and places -/

/-- An offset is that of a place between characters, and the position is the place's. -/
theorem offset?_eq_some_iff {cs : List Char} {p : Position} {n : Nat} :
    offset? cs p = some n ↔ ∃ before after, cs = before ++ after ∧ size before = n ∧
      p = behind before := by
  constructor
  · intro h
    obtain ⟨before, after, hcs, hsize, hp⟩ := offset?_eq_some h
    exact ⟨before, after, hcs, hsize, by rw [hp, Position.afterLexeme_eq_behind]⟩
  · rintro ⟨before, after, rfl, rfl, rfl⟩
    rw [← Position.afterLexeme_eq_behind]
    exact Position.offset?_afterLexeme before after

theorem size_lt_size_append {bs : List Char} (as : List Char) (h : bs ≠ []) :
    size as < size (as ++ bs) := by
  have := size_pos h
  rw [size_append]
  omega

/-- Two places in a text are the same, or one of them comes first by offset and by position. -/
theorem compare_places {a a' b b' : List Char} (h : a ++ b = a' ++ b') :
    (a = a') ∨ (size a < size a' ∧ (behind a).Before (behind a')) ∨
      (size a' < size a ∧ (behind a').Before (behind a)) := by
  obtain ⟨y, rfl, -⟩ | ⟨y, rfl, -⟩ := List.append_eq_append_iff.mp h
  · by_cases hy : y = []
    · exact Or.inl (by rw [hy, List.append_nil])
    · exact Or.inr (Or.inl ⟨size_lt_size_append a hy, Position.before_behind_append a hy⟩)
  · by_cases hy : y = []
    · exact Or.inl (by rw [hy, List.append_nil])
    · exact Or.inr (Or.inr ⟨size_lt_size_append a' hy, Position.before_behind_append a' hy⟩)

/-- Offsets are in the order of positions, and different positions have different ones. -/
theorem offset?_lt_iff {cs : List Char} {p q : Position} {n m : Nat} (hp : offset? cs p = some n)
    (hq : offset? cs q = some m) : (n < m ↔ p.Before q) ∧ (n = m ↔ p = q) := by
  obtain ⟨a, b, rfl, rfl, rfl⟩ := offset?_eq_some_iff.mp hp
  obtain ⟨a', b', hcs, rfl, rfl⟩ := offset?_eq_some_iff.mp hq
  obtain rfl | ⟨hsize, hposition⟩ | ⟨hsize, hposition⟩ := compare_places hcs
  · exact ⟨iff_of_false (Nat.lt_irrefl _) fun h => h.ne rfl, iff_of_true rfl rfl⟩
  · exact ⟨iff_of_true hsize hposition, iff_of_false (Nat.ne_of_lt hsize) hposition.ne⟩
  · exact ⟨iff_of_false (Nat.lt_asymm hsize) hposition.asymm,
      iff_of_false (Nat.ne_of_gt hsize) hposition.ne.symm⟩

/-- Offsets and positions tell the same places of a text. A position has an offset just if the text
has the position; the offset is then that of the place between characters with as many line feeds
before it as the line has, and as many characters of its line before it as the column has; every
place has a position; and offsets are equal or in order just when positions are. -/
theorem offset?_inverts_positions (cs : List Char) :
    (∀ p, (∃ n, offset? cs p = some n) ↔ p.In cs) ∧
    (∀ p n, offset? cs p = some n ↔ 1 ≤ p.line ∧ 1 ≤ p.column ∧
      ∃ before after, cs = before ++ after ∧ size before = n ∧
        before.count '\n' = p.line - 1 ∧ (lastLine before).length = p.column - 1) ∧
    ∀ p q n m, offset? cs p = some n → offset? cs q = some m →
      (n < m ↔ p.Before q) ∧ (n = m ↔ p = q) := by
  refine ⟨fun p => exists_offset?_iff, ?_, fun p q n m => offset?_lt_iff⟩
  intro p n
  rw [offset?_eq_some_iff]
  constructor
  · rintro ⟨before, after, hcs, hsize, rfl⟩
    exact ⟨Nat.le_add_left _ _, Nat.le_add_left _ _, before, after, hcs, hsize, rfl, rfl⟩
  · rintro ⟨hline, hcolumn, before, after, hcs, hsize, hfeeds, hcharacters⟩
    refine ⟨before, after, hcs, hsize, ?_⟩
    rw [behind, hfeeds, hcharacters, Nat.sub_add_cancel hline, Nat.sub_add_cancel hcolumn]

/-- The end of a first line with an accent, and the end of a last line without a line feed. -/
theorem offset?_inverts_positions_sample :
    offset? "é\nab".toList ⟨1, 2⟩ = some 2 ∧ offset? "é\nab".toList ⟨2, 3⟩ = some 5 ∧
      ((2 < 5 ↔ (⟨1, 2⟩ : Position).Before ⟨2, 3⟩) ∧ (2 = 5 ↔ (⟨1, 2⟩ : Position) = ⟨2, 3⟩)) := by
  have hfirst : offset? "é\nab".toList ⟨1, 2⟩ = some 2 := by decide +kernel
  have hlast : offset? "é\nab".toList ⟨2, 3⟩ = some 5 := by decide +kernel
  exact ⟨hfirst, hlast, (offset?_inverts_positions "é\nab".toList).2.2 _ _ _ _ hfirst hlast⟩

end Text

end QueryBindings
