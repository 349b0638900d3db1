import QueryBindings.Text.Lines
/-!
The pieces of a text between separators.

The first piece reaches up to the first separator, and every separator opens one more piece. A text
that is put together around a separator has the pieces of both parts.
-/
namespace QueryBindings.Text

variable {separator : Char}

@[simp] theorem pieces_nil (separator : Char) : pieces separator [] = [[]] := rfl

@[simp] theorem pieces_cons_self (separator : Char) (cs : List Char) :
    pieces separator (separator :: cs) = [] :: pieces separator cs := if_pos rfl

theorem exists_pieces_cons {c : Char} (h : c ≠ separator) (cs : List Char) :
    ∃ piece rest, pieces separator cs = piece :: rest ∧
      pieces separator (c :: cs) = (c :: piece) :: rest := by
  cases hcs : pieces separator cs with
  | nil => exact absurd hcs (pieces_ne_nil separator cs)
  | cons piece rest => exact ⟨piece, rest, rfl, by simp [pieces, h, hcs]⟩

theorem head?_pieces (separator : Char) (cs : List Char) :
    (pieces separator cs).head? = some (cs.takeWhile (· ≠ separator)) := by
  induction cs with
  | nil => rfl
  | cons c cs ih =>
    by_cases h : c = separator
    · simp [h]
    · obtain ⟨piece, rest, hcs, hc⟩ := exists_pieces_cons h cs
      rw [hcs] at ih
      simpa [hc, h] using ih

/-- The pieces of two texts with a separator between them are those of both. -/
theorem pieces_append (separator : Char) (as bs : List Char) :
    pieces separator (as ++ separator :: bs) = pieces separator as ++ pieces separator bs := by
  induction as with
  | nil => simp
  | cons c as ih =>
    by_cases h : c = separator
    · simp [h, ih]
    · obtain ⟨piece, rest, has, hc⟩ := exists_pieces_cons h as
      obtain ⟨piece', rest', hall, hc'⟩ := exists_pieces_cons h (as ++ separator :: bs)
      rw [hall, has, List.cons_append, List.cons.injEq] at ih
      rw [List.cons_append, hc', hc, ih.1, ih.2, List.cons_append]

theorem pieces_of_not_mem {cs : List Char} (h : separator ∉ cs) : pieces separator cs = [cs] := by
  induction cs with
  | nil => rfl
  | cons c cs ih =>
    obtain ⟨hc, hcs⟩ := List.ne_and_not_mem_of_not_mem_cons h
    obtain ⟨piece, rest, heq, hcons⟩ := exists_pieces_cons (Ne.symm hc) cs
    rw [ih hcs, List.cons.injEq] at heq
    rw [hcons, ← heq.1, ← heq.2]

end QueryBindings.Text
