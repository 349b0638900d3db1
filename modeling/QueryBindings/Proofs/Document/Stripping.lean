import QueryBindings.Document.Basic
/-!
What the removal of comment lines leaves of a text.

Lines are told apart at line feeds only, whatever stands in them, so a line inside a block string
can be taken for a comment. The removal goes on upwards until a line is no comment, and then the
text in front of that line's end is left as it is.
-/
namespace QueryBindings.Text

/-! ### Trimming -/

theorem trimStart_append_cons {a : List Char} {c : Char} (hc : isBlank c = false) (cs : List Char) :
    trimStart (a ++ c :: cs) = trimStart a ++ c :: cs := by
  induction a with
  | nil => exact trimStart_cons_of_not_blank cs hc
  | cons d a ih =>
    cases hd : isBlank d with
    | true =>
      rw [List.cons_append, trimStart_cons_of_blank _ hd, trimStart_cons_of_blank _ hd, ih]
    | false =>
      rw [List.cons_append, trimStart_cons_of_not_blank _ hd, trimStart_cons_of_not_blank _ hd]
      rfl

theorem mem_of_mem_trimStart {cs : List Char} {c : Char} (h : c ∈ trimStart cs) : c ∈ cs :=
  (List.dropWhile_sublist isBlank).subset h

theorem trimEnd_append {a : List Char} {c : Char} (hc : isBlank c = false) (cs : List Char) :
    trimEnd (a ++ c :: cs) = a ++ c :: trimEnd cs := by
  have h := trimStart_append_cons (a := cs.reverse) hc a.reverse
  simp only [trimStart] at h
  simp [trimEnd, h]

/-- Trimming removes blanks only. -/
theorem exists_trimEnd (cs : List Char) : ∃ x, cs = trimEnd cs ++ x ∧ ∀ c ∈ x, isBlank c = true := by
  refine ⟨(cs.reverse.takeWhile isBlank).reverse, ?_, ?_⟩
  · rw [trimEnd, ← List.reverse_append, List.takeWhile_append_dropWhile, List.reverse_reverse]
  · intro c hc
    exact List.all_eq_true.mp List.all_takeWhile c (List.mem_reverse.mp hc)

/-! ### The last line -/

theorem splitAtLastFeed?_eq_none {cs : List Char} : splitAtLastFeed? cs = none ↔ '\n' ∉ cs := by
  induction cs with
  | nil => simp [splitAtLastFeed?]
  | cons c cs ih =>
    rw [splitAtLastFeed?, List.mem_cons, not_or]
    cases h : splitAtLastFeed? cs with
    | some s =>
      have : '\n' ∈ cs := by
        rw [← Decidable.not_not (p := '\n' ∈ cs), ← ih, h]
        exact Option.some_ne_none s
      simp [this]
    | none =>
      have hcs := ih.mp h
      by_cases hc : c = '\n'
      · simp [hc]
      · simp [hc, hcs, Ne.symm hc]

theorem splitAtLastFeed?_append (before : List Char) {last : List Char} (h : '\n' ∉ last) :
    splitAtLastFeed? (before ++ '\n' :: last) = some (before, last) := by
  induction before with
  | nil => rw [List.nil_append, splitAtLastFeed?, splitAtLastFeed?_eq_none.mpr h, if_pos rfl]
  | cons c before ih => rw [List.cons_append, splitAtLastFeed?, ih]

/-- A text that has line feeds has a last one. -/
theorem exists_last_line (cs : List Char) :
    '\n' ∉ cs ∨ ∃ before last, cs = before ++ '\n' :: last ∧ '\n' ∉ last := by
  induction cs with
  | nil => exact Or.inl (by simp)
  | cons c cs ih =>
    obtain h | ⟨before, last, rfl, h⟩ := ih
    · by_cases hc : c = '\n'
      · exact Or.inr ⟨[], cs, by rw [hc]; rfl, h⟩
      · exact Or.inl (by simp [h, Ne.symm hc])
    · exact Or.inr ⟨c :: before, last, rfl, h⟩

/-- Whether the last line of a text that spans lines holds a comment and nothing before it. -/
def endsInCommentLine (cs : List Char) : Bool :=
  match splitAtLastFeed? cs with
  | none => false
  | some (_, last) => isCommentLine last

theorem endsInCommentLine_of_no_feed {cs : List Char} (h : '\n' ∉ cs) :
    endsInCommentLine cs = false := by
  rw [endsInCommentLine, splitAtLastFeed?_eq_none.mpr h]

theorem endsInCommentLine_append (before : List Char) {last : List Char} (h : '\n' ∉ last) :
    endsInCommentLine (before ++ '\n' :: last) = isCommentLine last := by
  rw [endsInCommentLine, splitAtLastFeed?_append before h]

/-! ### Comment lines -/

theorem trimStart_of_allBlank {a : List Char} (h : allBlank a = true) (b : List Char) :
    trimStart (a ++ b) = trimStart b := by
  induction a with
  | nil => rfl
  | cons c a ih =>
    obtain ⟨hc, ha⟩ := List.forall_mem_cons.mp (List.all_eq_true.mp h)
    rw [List.cons_append, trimStart_cons_of_blank _ hc, ih (List.all_eq_true.mpr ha)]

theorem exists_not_blank {a : List Char} (h : ¬allBlank a = true) :
    ∃ x c y, a = x ++ c :: y ∧ isBlank c = false := by
  rw [allBlank, List.all_eq_true] at h
  simp only [Classical.not_forall, Bool.not_eq_true] at h
  obtain ⟨c, hmem, hc⟩ := h
  obtain ⟨x, y, rfl⟩ := List.append_of_mem hmem
  exact ⟨x, c, y, rfl, hc⟩

/-- Whether a line is a comment is settled by its first character that is no blank. -/
theorem isCommentLine_append {a : List Char} (h : ¬allBlank a = true) (b : List Char) :
    isCommentLine (a ++ b) = isCommentLine a := by
  obtain ⟨x, c, y, rfl, hc⟩ := exists_not_blank h
  rw [isCommentLine, isCommentLine, List.append_assoc, List.cons_append,
    trimStart_append_cons hc, trimStart_append_cons hc]
  cases trimStart x <;> rfl

theorem not_allBlank_of_isCommentLine {a : List Char} (h : isCommentLine a = true) :
    ¬allBlank a = true := by
  intro hblank
  have := trimStart_of_allBlank hblank []
  rw [List.append_nil] at this
  simp [isCommentLine, this] at h

/-- What follows a line feed holds nothing, or a comment first. -/
def CommentFirst (cs : List Char) : Prop := isCommentLine cs = true ∨ allBlank cs = true

theorem CommentFirst.of_append {a b : List Char} (h : CommentFirst (a ++ b)) : CommentFirst a := by
  by_cases ha : allBlank a = true
  · exact Or.inr ha
  · obtain h | h := h
    · rw [isCommentLine_append ha] at h
      exact Or.inl h
    · rw [allBlank, List.all_append, Bool.and_eq_true] at h
      exact absurd h.1 ha

theorem CommentFirst.append {a b : List Char} (ha : CommentFirst a) (hb : CommentFirst b) :
    CommentFirst (a ++ b) := by
  obtain ha | ha := ha
  · left
    rw [isCommentLine_append (not_allBlank_of_isCommentLine ha), ha]
  · obtain hb | hb := hb
    · left
      rw [isCommentLine, trimStart_of_allBlank ha]
      exact hb
    · right
      rw [allBlank, List.all_append, Bool.and_eq_true]
      exact ⟨ha, hb⟩

/-- Whether every line after the first holds a comment, or nothing. -/
def OnlyCommentLines (cs : List Char) : Prop := ∀ a b, cs = a ++ '\n' :: b → CommentFirst b

theorem onlyCommentLines_append_blank {a x : List Char} (hx : allBlank x = true) :
    OnlyCommentLines (a ++ x) ↔ OnlyCommentLines a := by
  constructor
  · rintro h y z rfl
    exact CommentFirst.of_append (h y (z ++ x) (by simp))
  · intro h y z hyz
    obtain ⟨b, rfl, hb⟩ | ⟨b, rfl, hb⟩ := List.append_eq_append_iff.mp hyz
    · have hz : allBlank z = true := by
        rw [hb, allBlank, List.all_append, Bool.and_eq_true, List.all_cons, Bool.and_eq_true] at hx
        exact hx.2.2
      exact Or.inr hz
    · cases b with
      | nil =>
        rw [List.nil_append] at hb
        rw [← hb, allBlank, List.all_cons, Bool.and_eq_true] at hx
        exact Or.inr hx.2
      | cons d b =>
        obtain ⟨rfl, rfl⟩ := List.cons.inj hb
        exact (h y b rfl).append (Or.inr hx)

theorem onlyCommentLines_append_line {a l : List Char} (hl : isCommentLine l = true)
    (hfeed : '\n' ∉ l) : OnlyCommentLines (a ++ '\n' :: l) ↔ OnlyCommentLines a := by
  constructor
  · rintro h y z rfl
    exact CommentFirst.of_append (h y (z ++ '\n' :: l) (by simp))
  · intro h y z hyz
    obtain ⟨b, rfl, hb⟩ | ⟨b, rfl, hb⟩ := List.append_eq_append_iff.mp hyz
    · cases b with
      | nil =>
        obtain rfl := (List.cons.inj hb).2
        exact Or.inl hl
      | cons d b =>
        obtain ⟨-, rfl⟩ := List.cons.inj hb
        simp at hfeed
    · cases b with
      | nil =>
        obtain rfl := (List.cons.inj hb).2
        exact Or.inl hl
      | cons d b =>
        obtain ⟨rfl, rfl⟩ := List.cons.inj hb
        exact (h y b rfl).append (.append (a := ['\n']) (Or.inr rfl) (Or.inl hl))

/-! ### The removal -/

theorem dropCommentLines_of_no_feed {cs : List Char} (h : '\n' ∉ cs) : dropCommentLines cs = cs := by
  rw [dropCommentLines]
  split
  · rfl
  · rename_i hsplit
    rw [splitAtLastFeed?_eq_none.mpr h] at hsplit
    contradiction

/-- A last line that is a comment goes, with the blanks before it. -/
theorem dropCommentLines_append (before : List Char) {last : List Char} (h : '\n' ∉ last) :
    dropCommentLines (before ++ '\n' :: last) =
      if isCommentLine last then dropCommentLines (trimEnd before)
      else before ++ '\n' :: last := by
  rw [dropCommentLines]
  split
  · rename_i hsplit
    rw [splitAtLastFeed?_append before h] at hsplit
    contradiction
  · rename_i hsplit
    rw [splitAtLastFeed?_append before h] at hsplit
    cases hsplit
    rfl

theorem exists_cut {u y before : List Char} (h : trimEnd before = u ++ y)
    (hy : ∀ c ∈ y.head?, isBlank c = true) (last : List Char) :
    ∃ b v, isBlank b = true ∧ before ++ '\n' :: last = u ++ b :: v := by
  obtain ⟨x, hx, hblank⟩ := exists_trimEnd before
  rw [h, List.append_assoc] at hx
  cases y with
  | cons d y => exact ⟨d, y ++ (x ++ '\n' :: last), hy d rfl, by rw [hx]; simp⟩
  | nil =>
    cases x with
    | cons d x => exact ⟨d, x ++ '\n' :: last, hblank d (by simp), by rw [hx]; simp⟩
    | nil => exact ⟨'\n', last, rfl, by rw [hx]; simp⟩

/-- What is removed at the end of a text is nothing, or it starts with a blank. -/
theorem exists_dropCommentLines (cs : List Char) :
    ∃ y, cs = dropCommentLines cs ++ y ∧ ∀ c ∈ y.head?, isBlank c = true := by
  obtain h | ⟨before, last, hcs, h⟩ := exists_last_line cs
  · rw [dropCommentLines_of_no_feed h]
    exact ⟨[], by simp, by simp⟩
  · rw [hcs, dropCommentLines_append before h]
    split
    · obtain ⟨y, hy, hhead⟩ := exists_dropCommentLines (trimEnd before)
      obtain ⟨b, v, hb, heq⟩ := exists_cut hy hhead last
      exact ⟨b :: v, heq, by simpa using hb⟩
    · exact ⟨[], by simp, by simp⟩
termination_by cs.length
decreasing_by
  have := length_trimEnd_le before
  rw [hcs, List.length_append, List.length_cons]
  omega

/-- The first line stays. -/
theorem exists_dropCommentLines_cons {c : Char} (hc : isBlank c = false) (cs : List Char) :
    ∃ rest, dropCommentLines (c :: cs) = c :: rest := by
  obtain h | ⟨before, last, hcs, h⟩ := exists_last_line (c :: cs)
  · exact ⟨cs, dropCommentLines_of_no_feed h⟩
  · cases before with
    | nil =>
      obtain ⟨rfl, -⟩ := List.cons.inj hcs
      contradiction
    | cons d before =>
      obtain ⟨rfl, -⟩ := List.cons.inj hcs
      rw [hcs, dropCommentLines_append _ h]
      split
      · rw [show trimEnd (c :: before) = c :: trimEnd before from trimEnd_append (a := []) hc before]
        exact exists_dropCommentLines_cons hc (trimEnd before)
      · exact ⟨before ++ '\n' :: last, rfl⟩
termination_by cs.length
decreasing_by
  have := length_trimEnd_le before
  have hlength := congrArg List.length hcs
  rw [List.length_append, List.length_cons, List.length_cons, List.length_cons] at hlength
  omega

theorem trimEnd_append_blank {x : List Char} (hx : allBlank x = true) (a : List Char) :
    trimEnd (a ++ x) = trimEnd a := by
  have hrev : allBlank x.reverse = true := by
    rw [allBlank, List.all_reverse]
    exact hx
  rw [trimEnd, trimEnd, List.reverse_append]
  exact congrArg List.reverse (trimStart_of_allBlank hrev a.reverse)

/-- Trimming leaves no blank line at the end. -/
theorem not_allBlank_of_trimEnd {cs a l : List Char} (h : trimEnd cs = a ++ '\n' :: l) :
    ¬allBlank l = true := by
  intro hlast
  obtain ⟨x, hx, hblank⟩ := exists_trimEnd cs
  have hfeed : allBlank ('\n' :: l) = true := by
    rw [allBlank, List.all_cons, Bool.and_eq_true]
    exact ⟨rfl, hlast⟩
  have htrim : trimEnd cs = trimEnd a :=
    calc trimEnd cs = trimEnd (trimEnd cs ++ x) := congrArg trimEnd hx
      _ = trimEnd (a ++ '\n' :: l) := by
        rw [trimEnd_append_blank (List.all_eq_true.mpr hblank), h]
      _ = trimEnd a := trimEnd_append_blank hfeed a
  have hlength := congrArg List.length htrim
  have := length_trimEnd_le a
  rw [h, List.length_append, List.length_cons] at hlength
  omega

/-- Behind a text that ends without a blank, comment lines are removed until only the rest of its
last line is left, or until a line is no comment. -/
theorem dropCommentLines_tail {w : List Char} {c : Char} (hc : isBlank c = false)
    (tail : List Char) :
    (OnlyCommentLines tail ∧ ∃ t, t <+: tail ∧ '\n' ∉ t ∧
      dropCommentLines (w ++ c :: trimEnd tail) = dropCommentLines (w ++ c :: t)) ∨
    (¬OnlyCommentLines tail ∧ ∃ t, t <+: tail ∧
      dropCommentLines (w ++ c :: trimEnd tail) = w ++ c :: t) := by
  obtain ⟨x, hx, hblank⟩ := exists_trimEnd tail
  have hx' : allBlank x = true := List.all_eq_true.mpr hblank
  have honly : OnlyCommentLines tail ↔ OnlyCommentLines (trimEnd tail) := by
    have := onlyCommentLines_append_blank (a := trimEnd tail) hx'
    rwa [← hx] at this
  have hprefix : trimEnd tail <+: tail := ⟨x, hx.symm⟩
  obtain h | ⟨a, l, ht, h⟩ := exists_last_line (trimEnd tail)
  · left
    refine ⟨?_, trimEnd tail, hprefix, h, rfl⟩
    rw [honly]
    intro y z hyz
    rw [hyz] at h
    simp at h
  · have hdrop := dropCommentLines_append (w ++ c :: a) h
    rw [List.append_assoc, List.cons_append, ← ht] at hdrop
    by_cases hl : isCommentLine l = true
    · rw [if_pos hl, trimEnd_append hc] at hdrop
      rw [honly, ht, onlyCommentLines_append_line hl h, ← ht, hdrop]
      have ha : a <+: tail := List.IsPrefix.trans ⟨'\n' :: l, ht.symm⟩ hprefix
      obtain ⟨hall, t, hta, hfeed, heq⟩ | ⟨hnot, t, hta, heq⟩ := dropCommentLines_tail hc a
      · exact Or.inl ⟨hall, t, hta.trans ha, hfeed, heq⟩
      · exact Or.inr ⟨hnot, t, hta.trans ha, heq⟩
    · right
      rw [if_neg hl] at hdrop
      refine ⟨?_, trimEnd tail, hprefix, hdrop⟩
      rw [honly]
      intro hall
      obtain hcomment | hlast := hall a l ht
      · contradiction
      · exact not_allBlank_of_trimEnd ht hlast
termination_by tail.length
decreasing_by
  have hlength := congrArg List.length hx
  rw [ht, List.length_append, List.length_append, List.length_cons] at hlength
  omega

/-- Whether the comment lines at the end of `w ++ tail` reach into `w`. -/
def Overreaches (w tail : List Char) : Prop := endsInCommentLine w = true ∧ OnlyCommentLines tail

theorem isCommentLine_append_of_not_blank {l : List Char} {c : Char} (hc : isBlank c = false)
    (t : List Char) : isCommentLine (l ++ c :: t) = isCommentLine (l ++ [c]) := by
  rw [isCommentLine, isCommentLine, trimStart_append_cons hc, trimStart_append_cons hc]
  cases trimStart l <;> rfl

/-- A text that starts and ends without a blank stays whole in front of anything, or it is cut
before a blank. -/
theorem dropCommentLines_cases {w : List Char} {c : Char} (hc : isBlank c = false)
    (tail : List Char) :
    (¬Overreaches (w ++ [c]) tail ∧ ∃ t, t <+: tail ∧
      dropCommentLines (w ++ c :: trimEnd tail) = w ++ c :: t) ∨
    (Overreaches (w ++ [c]) tail ∧ ∃ b v, isBlank b = true ∧
      w ++ [c] = dropCommentLines (w ++ c :: trimEnd tail) ++ b :: v) := by
  obtain ⟨hall, t, ht, hfeed, heq⟩ | ⟨hnot, t, ht, heq⟩ := dropCommentLines_tail (w := w) hc tail
  · have hcfeed : c ≠ '\n' := by
      rintro rfl
      contradiction
    obtain h | ⟨before, last, rfl, h⟩ := exists_last_line w
    · have hends : endsInCommentLine (w ++ [c]) = false :=
        endsInCommentLine_of_no_feed (by simp [h, Ne.symm hcfeed])
      left
      refine ⟨fun hover => ?_, t, ht, ?_⟩
      · rw [hover.1] at hends
        contradiction
      · rw [heq]
        exact dropCommentLines_of_no_feed (by simp [h, Ne.symm hcfeed, hfeed])
    · have hends : endsInCommentLine (before ++ '\n' :: last ++ [c]) =
          isCommentLine (last ++ c :: t) := by
        rw [isCommentLine_append_of_not_blank hc, List.append_assoc, List.cons_append]
        exact endsInCommentLine_append before (by simp [h, Ne.symm hcfeed])
      have hdrop : dropCommentLines (before ++ '\n' :: last ++ c :: t) =
          if isCommentLine (last ++ c :: t) then dropCommentLines (trimEnd before)
          else before ++ '\n' :: last ++ c :: t := by
        rw [List.append_assoc, List.cons_append]
        exact dropCommentLines_append before (by simp [h, Ne.symm hcfeed, hfeed])
      rw [heq, hdrop, ← hends]
      cases hline : endsInCommentLine (before ++ '\n' :: last ++ [c]) with
      | false => exact Or.inl ⟨fun hover => by rw [hover.1] at hline; contradiction, t, ht, rfl⟩
      | true =>
        obtain ⟨y, hy, hhead⟩ := exists_dropCommentLines (trimEnd before)
        obtain ⟨b, v, hb, hcut⟩ := exists_cut hy hhead (last ++ [c])
        right
        refine ⟨⟨hline, hall⟩, b, v, hb, ?_⟩
        rw [if_pos rfl, ← hcut]
        simp
  · exact Or.inl ⟨fun h => hnot h.2, t, ht, heq⟩

theorem endsInCommentLine_append_left {a r : List Char} {d : Char} (ha : '#' ∉ a)
    (hd : isBlank d = false) (hd' : d ≠ '#') :
    endsInCommentLine (a ++ d :: r) = endsInCommentLine (d :: r) := by
  obtain h | ⟨before, last, hr, h⟩ := exists_last_line (d :: r)
  · rw [endsInCommentLine_of_no_feed h]
    obtain ha' | ⟨before, last, rfl, ha'⟩ := exists_last_line a
    · exact endsInCommentLine_of_no_feed (by rw [List.mem_append]; exact not_or.mpr ⟨ha', h⟩)
    · rw [List.append_assoc, List.cons_append, endsInCommentLine_append before
        (by rw [List.mem_append]; exact not_or.mpr ⟨ha', h⟩), isCommentLine,
        trimStart_append_cons hd]
      cases hlast : trimStart last with
      | nil => simpa using hd'
      | cons e l =>
        have he : e ∈ last := mem_of_mem_trimStart (by rw [hlast]; simp)
        have hne : e ≠ '#' := by
          rintro rfl
          exact ha (by simp [he])
        simpa using hne
  · rw [hr, ← List.append_assoc, endsInCommentLine_append _ h, endsInCommentLine_append _ h]

/-- A piece of a text between blanks and comment lines: `body` stays whole, or it is cut before a
blank. -/
theorem dropTrailingComments_cases {lead body inner r : List Char} (tail : List Char) {c d : Char}
    (hbody : body = inner ++ [c]) (hbody' : body = d :: r) (hc : isBlank c = false)
    (hd : isBlank d = false) (hd' : d ≠ '#') (hlead : '#' ∉ lead) :
    (¬Overreaches body tail ∧ ∃ t, t <+: tail ∧
      dropTrailingComments (lead ++ (body ++ tail)) = trimStart lead ++ (body ++ t)) ∨
    (Overreaches body tail ∧ ∃ u b v, dropTrailingComments (lead ++ (body ++ tail)) = u ∧ u ≠ [] ∧
      isBlank b = true ∧ trimStart lead ++ body = u ++ b :: v) := by
  have hover : Overreaches (trimStart lead ++ inner ++ [c]) tail ↔ Overreaches body tail := by
    rw [Overreaches, Overreaches, List.append_assoc, ← hbody, hbody',
      endsInCommentLine_append_left (fun h => hlead (mem_of_mem_trimStart h)) hd hd']
  have htrim : trim (lead ++ (body ++ tail)) = trimStart lead ++ inner ++ c :: trimEnd tail := by
    rw [trim, hbody', List.cons_append, trimStart_append_cons hd, ← List.cons_append, ← hbody',
      hbody, List.append_assoc, List.singleton_append, ← List.append_assoc, trimEnd_append hc]
  have hne : dropTrailingComments (lead ++ (body ++ tail)) ≠ [] := by
    obtain ⟨e, rest, he, heq⟩ : ∃ e rest, isBlank e = false ∧
        trimStart lead ++ inner ++ c :: trimEnd tail = e :: rest := by
      cases hstart : trimStart lead with
      | nil =>
        cases inner with
        | nil => exact ⟨c, _, hc, rfl⟩
        | cons e inner =>
          obtain ⟨rfl, -⟩ := List.cons.inj (hbody.symm.trans hbody')
          exact ⟨e, _, hd, rfl⟩
      | cons e l =>
        have hnot := List.head?_dropWhile_not isBlank lead
        rw [show lead.dropWhile isBlank = e :: l from hstart] at hnot
        exact ⟨e, _, by simpa using hnot, rfl⟩
    rw [dropTrailingComments, htrim, heq]
    obtain ⟨rest', hrest⟩ := exists_dropCommentLines_cons he rest
    rw [hrest]
    simp
  rw [dropTrailingComments, htrim, ← hover]
  obtain ⟨hnot, t, ht, heq⟩ | ⟨hcut, b, v, hb, heq⟩ :=
    dropCommentLines_cases (w := trimStart lead ++ inner) hc tail
  · exact Or.inl ⟨hnot, t, ht, by rw [heq, hbody]; simp⟩
  · refine Or.inr ⟨hcut, _, b, v, rfl, ?_, hb, ?_⟩
    · rw [dropTrailingComments, htrim] at hne
      exact hne
    · rw [← heq, hbody, List.append_assoc]

example : dropTrailingComments "\x7ba(x: \"\"\"\n# b\"\"\")\x7d".toList =
    "\x7ba(x: \"\"\"".toList := by decide +kernel

end QueryBindings.Text
