import QueryBindings.Proofs.Document.Stripping
/-!
Offsets of places in a text.

The size of what stands before a place is its offset. It is found again from the place's position as
long as that counts every character before it, and the text between two places is what is cut out
between their offsets.
-/
namespace QueryBindings

open Text

namespace Text

theorem size_pos {cs : List Char} (h : cs ≠ []) : 0 < size cs := by
  cases cs with
  | nil => contradiction
  | cons c cs =>
    have := c.utf8Size_pos
    rw [size_cons]
    omega

theorem eq_nil_of_size_append {as bs : List Char} (h : size (as ++ bs) = size as) : bs = [] := by
  apply Decidable.byContradiction
  intro hne
  have := size_pos hne
  rw [size_append] at h
  omega

/-! ### Slices -/

theorem exists_size_cons (c : Char) (cs : List Char) :
    ∃ n, size (c :: cs) = n + 1 ∧ c.utf8Size ≤ n + 1 ∧ n + 1 - c.utf8Size = size cs := by
  have hpos := size_pos (List.cons_ne_nil c cs)
  refine ⟨size (c :: cs) - 1, ?_, ?_, ?_⟩
  · omega
  · rw [size_cons]
    omega
  · rw [size_cons] at hpos ⊢
    omega

theorem dropBytes?_append (as bs : List Char) : dropBytes? (size as) (as ++ bs) = some bs := by
  induction as with
  | nil => cases bs <;> rfl
  | cons c as ih =>
    obtain ⟨n, hn, hle, hsize⟩ := exists_size_cons c as
    rw [hn, List.cons_append, dropBytes?, if_pos hle, hsize, ih]

theorem takeBytes?_append (as bs : List Char) : takeBytes? (size as) (as ++ bs) = some as := by
  induction as with
  | nil => cases bs <;> rfl
  | cons c as ih =>
    obtain ⟨n, hn, hle, hsize⟩ := exists_size_cons c as
    rw [hn, List.cons_append, takeBytes?, if_pos hle, hsize, ih, Option.map_some]

/-- The text between two places. -/
theorem slice?_append (as bs cs : List Char) :
    slice? (as ++ (bs ++ cs)) (size as) (size as + size bs) = some bs := by
  rw [slice?, if_pos (Nat.le_add_right _ _), dropBytes?_append, Nat.add_sub_cancel_left]
  exact takeBytes?_append bs cs

/-! ### Positions that count every character -/

/-- The offset of a column is the size of the characters before it. -/
theorem columnOffset?_append {as : List Char} (h : '\n' ∉ as) (bs : List Char) :
    columnOffset? as.length (as ++ bs) = some (size as) := by
  induction as with
  | nil => cases bs <;> rfl
  | cons c as ih =>
    obtain ⟨hc, has⟩ := List.ne_and_not_mem_of_not_mem_cons h
    rw [List.length_cons, List.cons_append, columnOffset?, if_neg (Ne.symm hc), ih has]
    rfl

/-- The offset of a position behind a line feed is counted from that line feed on. -/
theorem lineOffset?_append_feed (column : Nat) (as bs : List Char) :
    lineOffset? column ((as ++ ['\n']).count '\n') (as ++ '\n' :: bs) =
      (columnOffset? column bs).map (size (as ++ ['\n']) + ·) := by
  induction as with
  | nil => simp [lineOffset?]
  | cons c as ih =>
    obtain ⟨n, hn⟩ : ∃ n, (as ++ ['\n']).count '\n' = n + 1 := by
      rw [List.count_append]
      exact ⟨as.count '\n', rfl⟩
    have hcount : ((c :: as) ++ ['\n']).count '\n' = (if c = '\n' then n + 1 else n) + 1 := by
      rw [List.cons_append, List.count_cons, hn]
      by_cases hc : c = '\n' <;> simp [hc]
    have hfeeds : (if c = '\n' then (if c = '\n' then n + 1 else n)
        else (if c = '\n' then n + 1 else n) + 1) = (as ++ ['\n']).count '\n' := by
      rw [hn]
      by_cases hc : c = '\n' <;> simp [hc]
    rw [hcount, List.cons_append, lineOffset?, hfeeds, ih, Option.map_map]
    congr 1
    funext n
    simp [Nat.add_assoc]

/-- Whether the last line of a text holds no tab, carriage return or byte order mark. -/
def PlainLine (cs : List Char) : Prop :=
  ∀ c ∈ cs.reverse.takeWhile (· ≠ '\n'), c ≠ '\t' ∧ c ≠ '\r' ∧ c ≠ '\ufeff'

theorem PlainLine.of_append_singleton {cs : List Char} {c : Char} (h : PlainLine (cs ++ [c]))
    (hc : c ≠ '\n') : (c ≠ '\t' ∧ c ≠ '\r' ∧ c ≠ '\ufeff') ∧ PlainLine cs := by
  simpa [PlainLine, hc] using h

end Text

namespace Position

/-- A token without line feeds moves to the right by its length. -/
theorem afterLexeme_of_no_feed {as : List Char} (h : '\n' ∉ as) (p : Position) :
    p.afterLexeme as = p.right as.length := by
  induction as generalizing p with
  | nil => rfl
  | cons c as ih =>
    obtain ⟨hc, has⟩ := List.ne_and_not_mem_of_not_mem_cons h
    rw [afterLexeme_cons, ih has, afterChar, if_neg (Ne.symm hc), right, right, right]
    simp only [List.length_cons, mk.injEq, true_and]
    omega

/-- A token moves down by its line feeds. -/
theorem line_afterLexeme (as : List Char) (p : Position) :
    (p.afterLexeme as).line = p.line + as.count '\n' := by
  induction as generalizing p with
  | nil => rfl
  | cons c as ih =>
    rw [afterLexeme_cons, ih, List.count_cons, afterChar]
    by_cases hc : c = '\n'
    · simp only [hc, if_true, nextLine, beq_self_eq_true]
      omega
    · simp [hc, right]

/-- On the last line of a text, the column counts the characters of that line. -/
theorem afterLexeme_line {before last : List Char}
    (hbefore : before = [] ∨ ∃ x, before = x ++ ['\n']) (hlast : '\n' ∉ last) :
    start.afterLexeme (before ++ last) = ⟨before.count '\n' + 1, last.length + 1⟩ := by
  rw [afterLexeme_append, afterLexeme_of_no_feed hlast]
  obtain rfl | ⟨x, rfl⟩ := hbefore
  · simp [start, right, Nat.add_comm]
  · rw [afterLexeme_append, afterLexeme_cons, afterLexeme_nil, afterChar, if_pos rfl, nextLine,
      right, line_afterLexeme]
    simp only [List.count_append, List.count_singleton_self, mk.injEq, start]
    omega

/-- The place behind a text, found by its position. -/
theorem offset?_afterLexeme (as bs : List Char) :
    offset? (as ++ bs) (start.afterLexeme as) = some (size as) := by
  obtain h | ⟨before, last, rfl, h⟩ := exists_last_line as
  · have hposition : start.afterLexeme ([] ++ as) = _ := afterLexeme_line (Or.inl rfl) h
    rw [List.nil_append] at hposition
    rw [hposition, offset?, if_neg (by simp)]
    simpa [lineOffset?] using columnOffset?_append h bs
  · have hposition := afterLexeme_line (Or.inr ⟨before, rfl⟩) h
    rw [List.append_assoc, List.singleton_append] at hposition
    rw [hposition, offset?, if_neg (by simp), Nat.add_sub_cancel, Nat.add_sub_cancel,
      List.append_assoc, List.cons_append, lineOffset?_append_feed, columnOffset?_append h]
    simp [Nat.add_assoc]

end Position

namespace Text

theorem columnOffset?_eq_some {n m : Nat} {cs : List Char} (h : columnOffset? n cs = some m) :
    ∃ l b, cs = l ++ b ∧ '\n' ∉ l ∧ l.length = n ∧ size l = m := by
  induction cs generalizing n m with
  | nil =>
    cases n with
    | zero => exact ⟨[], [], rfl, by simp, rfl, Option.some.inj h⟩
    | succ n => contradiction
  | cons c cs ih =>
    cases n with
    | zero => exact ⟨[], c :: cs, rfl, by simp, rfl, Option.some.inj h⟩
    | succ n =>
      rw [columnOffset?] at h
      split at h
      · contradiction
      · rename_i hc
        obtain ⟨k, hk, rfl⟩ := Option.map_eq_some_iff.mp h
        obtain ⟨l, b, rfl, hl, rfl, rfl⟩ := ih hk
        exact ⟨c :: l, b, rfl, by simp [Ne.symm hc, hl], rfl, rfl⟩

/-- A line and a column that have an offset cut the text in two. -/
theorem lineOffset?_eq_some {column n m : Nat} {cs : List Char}
    (h : lineOffset? column n cs = some m) :
    ∃ x l b, cs = x ++ l ++ b ∧ (x = [] ∨ ∃ y, x = y ++ ['\n']) ∧ x.count '\n' = n ∧
      '\n' ∉ l ∧ l.length = column ∧ size (x ++ l) = m := by
  induction cs generalizing n m with
  | nil =>
    cases n with
    | zero =>
      obtain ⟨l, b, hcs, hl, hcolumn, hm⟩ := columnOffset?_eq_some h
      exact ⟨[], l, b, hcs, Or.inl rfl, rfl, hl, hcolumn, hm⟩
    | succ n => contradiction
  | cons c cs ih =>
    cases n with
    | zero =>
      obtain ⟨l, b, hcs, hl, hcolumn, hm⟩ := columnOffset?_eq_some h
      exact ⟨[], l, b, hcs, Or.inl rfl, rfl, hl, hcolumn, hm⟩
    | succ n =>
      obtain ⟨k, hk, rfl⟩ := Option.map_eq_some_iff.mp h
      obtain ⟨x, l, b, rfl, hx, hcount, hl, hcolumn, rfl⟩ := ih hk
      refine ⟨c :: x, l, b, rfl, ?_, ?_, hl, hcolumn, rfl⟩
      · obtain rfl | ⟨y, rfl⟩ := hx
        · by_cases hc : c = '\n'
          · exact Or.inr ⟨[], by rw [hc]; rfl⟩
          · rw [if_neg hc] at hcount
            contradiction
        · exact Or.inr ⟨c :: y, rfl⟩
      · rw [List.count_cons, hcount]
        by_cases hc : c = '\n' <;> simp [hc]

/-- A position that has an offset is where a scan arrives behind the characters before it. -/
theorem offset?_eq_some {cs : List Char} {p : Position} {m : Nat} (h : offset? cs p = some m) :
    ∃ a b, cs = a ++ b ∧ size a = m ∧ p = Position.start.afterLexeme a := by
  rw [offset?] at h
  split at h
  · contradiction
  · rename_i hp
    obtain ⟨x, l, b, rfl, hx, hcount, hl, hcolumn, hm⟩ := lineOffset?_eq_some h
    refine ⟨x ++ l, b, rfl, hm, ?_⟩
    rw [Position.afterLexeme_line hx hl, hcount, hcolumn]
    obtain ⟨line, column⟩ := p
    simp only [not_or] at hp
    simp only [Position.mk.injEq]
    omega

/-- A position leads to a place in a text only if it is the position of that place. -/
theorem offset?_append_eq_some {as bs : List Char} {p : Position} :
    offset? (as ++ bs) p = some (size as) ↔ p = Position.start.afterLexeme as := by
  constructor
  · intro h
    obtain ⟨a, b, hab, hsize, rfl⟩ := offset?_eq_some h
    obtain ⟨y, rfl, -⟩ | ⟨y, rfl, -⟩ := List.append_eq_append_iff.mp hab
    · rw [eq_nil_of_size_append hsize, List.append_nil]
    · rw [eq_nil_of_size_append hsize.symm, List.append_nil]
  · rintro rfl
    exact Position.offset?_afterLexeme as bs

end Text

namespace Position

/-! ### Positions of a scan -/

/-- Whether a position that a scan has reached behind a text is on the right line, and at the right
column if the text ends in a plain line. -/
structure Counts (p : Position) (cs : List Char) : Prop where
  line : p.line = (start.afterLexeme cs).line
  exact_of_plain : PlainLine cs → p = start.afterLexeme cs

theorem counts_start : start.Counts [] := ⟨rfl, fun _ => rfl⟩

variable {p : Position} {cs : List Char}

theorem Counts.feed (h : p.Counts cs) : p.nextLine.Counts (cs ++ ['\n']) := by
  have hnext : p.nextLine = start.afterLexeme (cs ++ ['\n']) := by
    rw [afterLexeme_append, afterLexeme_cons, afterLexeme_nil, afterChar, if_pos rfl, nextLine,
      nextLine, h.line]
  exact ⟨congrArg Position.line hnext, fun _ => hnext⟩

theorem Counts.char (h : p.Counts cs) (c : Char) : (p.afterChar c).Counts (cs ++ [c]) := by
  by_cases hc : c = '\n'
  · rw [hc]
    exact h.feed
  · rw [afterChar, if_neg hc]
    have hnext : start.afterLexeme (cs ++ [c]) = (start.afterLexeme cs).right 1 := by
      rw [afterLexeme_append, afterLexeme_cons, afterLexeme_nil, afterChar, if_neg hc]
    refine ⟨?_, ?_⟩
    · rw [hnext]
      exact h.line
    · intro hplain
      rw [hnext, h.exact_of_plain (hplain.of_append_singleton hc).2]

theorem Counts.lexeme (h : p.Counts cs) (w : List Char) : (p.afterLexeme w).Counts (cs ++ w) := by
  induction w generalizing p cs with
  | nil => simpa using h
  | cons c w ih => simpa using ih (h.char c)

theorem Counts.ignored (h : p.Counts cs) {c : Char} (hc : Token.isIgnored c = true) :
    (p.afterIgnored c).Counts (cs ++ [c]) := by
  by_cases hfeed : c = '\n'
  · rw [hfeed]
    exact h.feed
  · have hnext : start.afterLexeme (cs ++ [c]) = (start.afterLexeme cs).right 1 := by
      rw [afterLexeme_append, afterLexeme_cons, afterLexeme_nil, afterChar, if_neg hfeed]
    simp only [Token.isIgnored, List.contains_iff_mem, List.mem_cons, List.not_mem_nil,
      or_false] at hc
    refine ⟨?_, ?_⟩
    · rw [hnext]
      obtain rfl | rfl | rfl | rfl | rfl | rfl := hc
      all_goals first | exact h.line | contradiction
    · intro hplain
      obtain ⟨⟨htab, hreturn, hmark⟩, hplain⟩ := hplain.of_append_singleton hfeed
      rw [hnext, ← h.exact_of_plain hplain]
      obtain rfl | rfl | rfl | rfl | rfl | rfl := hc
      all_goals first | rfl | contradiction

/-- A comment that a line feed ends. -/
theorem Counts.comment (h : p.Counts cs) {k : List Char} (hk : '\n' ∉ k) :
    p.nextLine.Counts (cs ++ ('#' :: (k ++ ['\n']))) := by
  have hnext : (p.afterLexeme ('#' :: k)).nextLine = p.nextLine := by
    rw [afterLexeme_of_no_feed (by simp [hk])]
    rfl
  have hfeed := (h.lexeme ('#' :: k)).feed
  rw [hnext] at hfeed
  simpa using hfeed

end Position

end QueryBindings
