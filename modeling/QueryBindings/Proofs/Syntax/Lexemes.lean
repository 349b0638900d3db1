import QueryBindings.Syntax.Scanner
/-!
Which characters a token takes.

A token depends on its own characters and on the next one only, and a blank behind it is no part of
it. So a token that is read once is read again in every text that has the same characters there.
-/
namespace QueryBindings

open Text

/-! ### Blanks and numbers -/

theorem Text.isBlank_of_graphic {c : Char} (h : 0x21 ≤ c.toNat) (h' : c.toNat ≤ 0x7E) :
    isBlank c = false := by
  simp [isBlank]
  omega

namespace Token

theorem isBlank_of_isNameChar {c : Char} (h : isNameChar c = true) : isBlank c = false := by
  change (decide (c = '_') || ((decide (65 ≤ c.val ∧ c.val ≤ 90) ||
    (decide (97 ≤ c.val) && decide (c.val ≤ 122))) || c.isDigit)) = true at h
  simp only [Bool.or_eq_true, Bool.and_eq_true, decide_eq_true_eq, UInt32.le_iff_toNat_le,
    Char.isDigit_iff_toNat] at h
  change c = '_' ∨ ((65 ≤ c.toNat ∧ c.toNat ≤ 90) ∨ (97 ≤ c.toNat ∧ c.toNat ≤ 122)) ∨
    (48 ≤ c.toNat ∧ c.toNat ≤ 57) at h
  obtain rfl | h := h
  · rfl
  · apply isBlank_of_graphic <;> omega

theorem isNameChar_of_isDigit {c : Char} (h : c.isDigit = true) : isNameChar c = true := by
  simp [isNameChar, Char.isAlphanum, h]

theorem isNameChar_of_isNameStart {c : Char} (h : isNameStart c = true) : isNameChar c = true := by
  simp only [isNameStart, isNameChar, Char.isAlphanum, Bool.or_eq_true] at h ⊢
  exact h.imp_right Or.inl

def isNumberChar (c : Char) : Bool := c.isDigit || ['+', '-', '.', 'e', 'E'].contains c

theorem isBlank_of_isNumberChar {c : Char} (h : isNumberChar c = true) : isBlank c = false := by
  simp only [isNumberChar, Bool.or_eq_true, List.contains_iff_mem] at h
  obtain h | h := h
  · exact isBlank_of_isNameChar (isNameChar_of_isDigit h)
  · simp only [List.mem_cons, List.not_mem_nil, or_false] at h
    obtain rfl | rfl | rfl | rfl | rfl := h <;> rfl

theorem isNumberChar_of_allDigits {cs : List Char} (h : allDigits cs = true) :
    ∀ c ∈ cs, isNumberChar c = true := by
  intro c hc
  have hd : c.isDigit = true := List.all_eq_true.mp h c hc
  simp [isNumberChar, hd]

theorem isNumberChar_of_wholePart? {cs digits : List Char} {negative : Bool}
    (h : wholePart? cs = some (negative, digits)) : ∀ c ∈ cs, isNumberChar c = true := by
  have hall : ∀ ds, (if ds = ['0'] then some (decide (cs.head? = some '-'), ds)
      else if ds.isEmpty || ds.head? = some '0' || !allDigits ds then none
      else some (decide (cs.head? = some '-'), ds)) = some (negative, digits) →
      ∀ c ∈ ds, isNumberChar c = true := by
    intro ds hds
    split at hds
    · rename_i hzero
      rw [hzero]
      simp [isNumberChar]
    · split at hds
      · contradiction
      · rename_i hdigits
        simp only [Bool.or_eq_true, not_or, Bool.not_eq_true, Bool.not_eq_false'] at hdigits
        exact isNumberChar_of_allDigits hdigits.2
  intro c hc
  by_cases hminus : cs.head? = some '-'
  · simp only [wholePart?, hminus, decide_true, if_true] at h
    cases cs with
    | nil => contradiction
    | cons d ds =>
      simp only [List.head?_cons, Option.some.injEq] at hminus
      obtain rfl | hc := List.mem_cons.mp hc
      · rw [hminus]
        rfl
      · exact hall ds (by simpa [hminus] using h) c hc
  · exact hall cs (by simpa [wholePart?, hminus] using h) c hc

theorem isNumberChar_of_exponent? {cs : List Char} {n : Int} (h : exponent? cs = some n) :
    ∀ c ∈ cs, isNumberChar c = true := by
  cases cs with
  | nil => simp
  | cons d digits =>
    simp only [exponent?] at h
    split at h
    · rename_i hsign
      split at h
      · contradiction
      · rename_i hall
        simp only [Bool.or_eq_true, not_or] at hall
        intro c hc
        obtain rfl | hc := List.mem_cons.mp hc
        · obtain rfl | rfl := hsign <;> rfl
        · exact isNumberChar_of_allDigits (by simpa using hall.2) c hc
    · split at h
      · rename_i hdigit
        intro c hc
        obtain rfl | hc := List.mem_cons.mp hc
        · have hd : c.isDigit = true := by
            simp only [Char.isDigit, Bool.and_eq_true, decide_eq_true_eq]
            exact ⟨Nat.le_trans (by decide) hdigit.1, Nat.le_trans hdigit.2.1 (by decide)⟩
          simp [isNumberChar, hd]
        · exact isNumberChar_of_allDigits hdigit.2.2 c hc
      · contradiction

theorem isNumberChar_of_isExponentLetter {c : Char} (h : isExponentLetter c = true) :
    isNumberChar c = true := by
  simp only [isExponentLetter, Bool.or_eq_true, decide_eq_true_eq] at h
  obtain rfl | rfl := h <;> rfl

/-- The first character that `dropWhile` keeps is one that it does not drop. -/
theorem eq_false_of_head?_dropWhile {p : Char → Bool} {cs : List Char} {c : Char}
    (h : (cs.dropWhile p).head? = some c) : p c = false := by
  have hnot := List.head?_dropWhile_not p cs
  rw [h] at hnot
  simpa using hnot

theorem isNumberChar_of_power {letter : Char} {power : List Char} {g : Int → Token} {t : Token}
    (hletter : isNumberChar letter = true) (h : (exponent? power).map g = some t) :
    ∀ c ∈ letter :: power, isNumberChar c = true := by
  obtain ⟨e, he, -⟩ := Option.map_eq_some_iff.mp h
  exact List.forall_mem_cons.mpr ⟨hletter, isNumberChar_of_exponent? he⟩

/-- A number holds digits, signs, a point and the letter of its exponent only. -/
theorem isNumberChar_of_number? {cs : List Char} {t : Token} (h : number? cs = some t) :
    ∀ c ∈ cs, isNumberChar c = true := by
  intro c hc
  rw [← List.takeWhile_append_dropWhile (p := fun c => !(c = '.' || isExponentLetter c)) (l := cs),
    List.mem_append] at hc
  simp only [number?] at h
  split at h
  · contradiction
  · rename_i hwhole
    obtain hc | hc := hc
    · exact isNumberChar_of_wholePart? hwhole c hc
    · split at h
      · rename_i hrest
        rw [hrest] at hc
        contradiction
      · rename_i rest hrest
        rw [hrest] at hc
        split at h
        · contradiction
        · rename_i hfraction
          simp only [Bool.or_eq_true, not_or, Bool.not_eq_true, Bool.not_eq_false'] at hfraction
          obtain rfl | hc := List.mem_cons.mp hc
          · rfl
          · rw [← List.takeWhile_append_dropWhile (p := (!isExponentLetter ·)) (l := rest),
              List.mem_append] at hc
            obtain hc | hc := hc
            · exact isNumberChar_of_allDigits hfraction.2 c hc
            · split at h
              · rename_i hnil
                rw [hnil] at hc
                contradiction
              · rename_i letter power hpower
                have hletter := eq_false_of_head?_dropWhile (by rw [hpower]; rfl)
                rw [Bool.not_eq_false'] at hletter
                rw [hpower] at hc
                exact isNumberChar_of_power (isNumberChar_of_isExponentLetter hletter) h c hc
      · rename_i letter power hpoint hpower
        have hletter := eq_false_of_head?_dropWhile (by rw [hpower]; rfl)
        simp only [Bool.not_eq_false', Bool.or_eq_true, decide_eq_true_eq] at hletter
        rw [hpower] at hc
        have hchar : isNumberChar letter = true := by
          obtain rfl | hletter := hletter
          · rfl
          · exact isNumberChar_of_isExponentLetter hletter
        exact isNumberChar_of_power hchar h c hc

/-! ### Strings -/

/-- What is behind the closing quote doesn't matter to a string's content. -/
theorem quotedContent?_eq_some {escaped : Bool} {cs content : List Char}
    (h : quotedContent? escaped cs = some content) :
    ∃ y, cs = content ++ '"' :: y ∧
      ∀ x, quotedContent? escaped (content ++ '"' :: x) = some content := by
  induction cs generalizing escaped content with
  | nil => contradiction
  | cons c rest ih =>
    simp only [quotedContent?] at h
    split at h
    · rename_i hclose
      obtain rfl := Option.some.inj h
      refine ⟨rest, by rw [hclose.1]; rfl, ?_⟩
      intro x
      simp [quotedContent?, hclose.2]
    · rename_i hopen
      split at h
      · contradiction
      · rename_i hfeed
        obtain ⟨content', hc, rfl⟩ := Option.map_eq_some_iff.mp h
        obtain ⟨y, hy, hx⟩ := ih hc
        refine ⟨y, by rw [hy]; rfl, ?_⟩
        intro x
        rw [List.cons_append, quotedContent?, if_neg hopen, if_neg hfeed, hx x]
        rfl

/-- Three quotes end a block string, unless a backslash stands before them. -/
theorem blockContent?_cons (previous c : Char) (rest : List Char) :
    blockContent? previous (c :: rest) =
      if (c :: rest).take 3 = ['"', '"', '"'] then
        if previous = '\\' then
          (blockContent? '"' (rest.drop 2)).map ('"' :: '"' :: '"' :: ·)
        else some []
      else (blockContent? c rest).map (c :: ·) := by
  by_cases h : (c :: rest).take 3 = ['"', '"', '"']
  · rw [if_pos h]
    match rest, h with
    | d :: e :: rest, h =>
      simp only [List.take_succ_cons, List.take_zero, List.cons.injEq, and_true] at h
      obtain ⟨rfl, rfl, rfl⟩ := h
      simp [blockContent?]
  · rw [if_neg h, blockContent?]
    rintro rest' rfl rfl
    exact h rfl

/-- What is behind the closing quotes doesn't matter to a block string's content. -/
theorem blockContent?_eq_some {previous : Char} {cs content : List Char}
    (h : blockContent? previous cs = some content) :
    ∃ y, cs = content ++ '"' :: '"' :: '"' :: y ∧
      ∀ x, blockContent? previous (content ++ '"' :: '"' :: '"' :: x) = some content := by
  induction previous, cs using blockContent?.induct generalizing content with
  | case1 => contradiction
  | case2 rest ih =>
    simp only [blockContent?, if_true] at h
    obtain ⟨content', hc, rfl⟩ := Option.map_eq_some_iff.mp h
    obtain ⟨y, hy, hx⟩ := ih hc
    refine ⟨y, by rw [hy]; rfl, ?_⟩
    intro x
    simp only [List.cons_append, blockContent?, if_true, hx x, Option.map_some]
  | case3 previous rest hprevious =>
    simp only [blockContent?, if_neg hprevious, Option.some.injEq] at h
    subst h
    refine ⟨rest, rfl, ?_⟩
    intro x
    simp [blockContent?, hprevious]
  | case4 previous c rest hquotes ih =>
    rw [blockContent?.eq_3 _ _ _ hquotes] at h
    obtain ⟨content', hc, rfl⟩ := Option.map_eq_some_iff.mp h
    obtain ⟨y, hy, hx⟩ := ih hc
    refine ⟨y, by rw [hy]; rfl, ?_⟩
    intro x
    have hnext : ∀ z, (content' ++ '"' :: '"' :: '"' :: z).take 2 =
        (content' ++ ['"', '"', '"']).take 2 := by
      intro z
      rw [show content' ++ '"' :: '"' :: '"' :: z = (content' ++ ['"', '"', '"']) ++ z by simp]
      exact List.take_append_of_le_length (by simp)
    rw [List.cons_append, blockContent?_cons, if_neg, hx x, Option.map_some]
    intro hquotes'
    rw [List.take_succ_cons, hnext x, ← hnext y, ← hy, List.cons.injEq] at hquotes'
    apply hquotes (rest.drop 2) hquotes'.1
    rw [← List.take_append_drop 2 rest, hquotes'.2]
    rfl

/-! ### Tokens -/

theorem takeWhile_takeWhile_append {p : Char → Bool} {rest x : List Char}
    (hx : ∀ d ∈ x.head?, p d = false) :
    (rest.takeWhile p ++ x).takeWhile p = rest.takeWhile p := by
  rw [List.takeWhile_append_of_pos (List.all_eq_true.mp List.all_takeWhile)]
  cases x with
  | nil => simp
  | cons d x => simp [hx d rfl]

/-- The characters `r` after `c` make up the token `t`, and `y` stands behind them. The token is
read again if the next character is the same, and a blank does not change it. -/
structure Lexeme (c : Char) (r y : List Char) (t : Token) : Prop where
  again : ∀ x, (∀ d ∈ x.head?, y.head? = some d) → read? c (r ++ x) = some (t, r.length)
  blank : ∀ b v z, isBlank b = true → read? c (r ++ b :: v) = some z → z = (t, r.length)

/-- A token that is read whatever follows. -/
theorem Lexeme.of_forall {c : Char} {r y : List Char} {t : Token}
    (h : ∀ x, read? c (r ++ x) = some (t, r.length)) : Lexeme c r y t := by
  constructor
  · intro x _
    exact h x
  · intro b v z _ hz
    rw [h] at hz
    exact (Option.some.inj hz).symm

theorem read?_name {c : Char} (hc : isNameStart c = true) (rest : List Char) :
    read? c rest = some (.name (String.ofList (c :: rest.takeWhile isNameChar)),
      (rest.takeWhile isNameChar).length) := by
  simp [read?, hc]

/-- A name goes on for as long as its characters do. -/
theorem lexeme_name {c : Char} (hc : isNameStart c = true) (rest : List Char) :
    Lexeme c (rest.takeWhile isNameChar) (rest.dropWhile isNameChar)
      (.name (String.ofList (c :: rest.takeWhile isNameChar))) := by
  constructor
  · intro x hx
    rw [read?_name hc, takeWhile_takeWhile_append]
    intro d hd
    exact eq_false_of_head?_dropWhile (hx d hd)
  · intro b v z hb hz
    rw [read?_name hc, takeWhile_takeWhile_append] at hz
    · exact (Option.some.inj hz).symm
    · intro d hd
      obtain rfl := Option.some.inj hd
      cases h : isNameChar b with
      | false => rfl
      | true =>
        rw [isBlank_of_isNameChar h] at hb
        contradiction

theorem read?_number {c : Char} (hc : isNameStart c = false) (hn : c = '-' ∨ c.isDigit = true)
    (rest : List Char) :
    read? c rest = (number? (c :: rest.takeWhile (!endsNumber ·))).map
      (·, (rest.takeWhile (!endsNumber ·)).length) := by
  simp [read?, hc, hn]

/-- A number goes on up to a character that ends it. -/
theorem lexeme_number {c : Char} {rest : List Char} {t : Token} (hc : isNameStart c = false)
    (hn : c = '-' ∨ c.isDigit = true)
    (ht : number? (c :: rest.takeWhile (!endsNumber ·)) = some t) :
    Lexeme c (rest.takeWhile (!endsNumber ·)) (rest.dropWhile (!endsNumber ·)) t := by
  constructor
  · intro x hx
    rw [read?_number hc hn, takeWhile_takeWhile_append, ht]
    · rfl
    · intro d hd
      exact eq_false_of_head?_dropWhile (hx d hd)
  · intro b v z hb hz
    rw [read?_number hc hn] at hz
    by_cases hends : endsNumber b = true
    · rw [takeWhile_takeWhile_append, ht] at hz
      · exact (Option.some.inj hz).symm
      · intro d hd
        obtain rfl := Option.some.inj hd
        simp [hends]
    · -- The blank would be part of the number, which has none.
      rw [List.takeWhile_append_of_pos (List.all_eq_true.mp List.all_takeWhile)] at hz
      obtain ⟨t', ht', -⟩ := Option.map_eq_some_iff.mp hz
      have hchar := isNumberChar_of_number? ht' b (by simp [hends])
      rw [isBlank_of_isNumberChar hchar] at hb
      contradiction

theorem read?_punctuator {c : Char} (hc : isPunctuator c = true) (rest : List Char) :
    read? c rest = some (.punctuator c, 0) := by
  simp only [isPunctuator, List.contains_iff_mem, List.mem_cons, List.not_mem_nil, or_false] at hc
  obtain rfl | rfl | rfl | rfl | rfl | rfl | rfl | rfl | rfl | rfl | rfl | rfl | rfl := hc <;> rfl

theorem lexeme_punctuator {c : Char} (hc : isPunctuator c = true) (rest : List Char) :
    Lexeme c [] rest (.punctuator c) := by
  apply Lexeme.of_forall
  intro x
  exact read?_punctuator hc x

theorem read?_dot (rest : List Char) :
    read? '.' rest = match rest with
      | '.' :: '.' :: _ => some (.ellipsis, 2)
      | _ => none := rfl

theorem lexeme_ellipsis {rest : List Char} {t : Token} {n : Nat}
    (h : read? '.' rest = some (t, n)) :
    ∃ y, rest = '.' :: '.' :: y ∧ n = 2 ∧ Lexeme '.' ['.', '.'] y t := by
  rw [read?_dot] at h
  split at h
  · rename_i y
    cases h
    exact ⟨y, rfl, rfl, Lexeme.of_forall fun _ => rfl⟩
  · contradiction

def quoted? (content : List Char) : Option (Token × Nat) :=
  (unescape? content).map fun value => (.string (String.ofList value), content.length + 1)

def block (content : List Char) : Token × Nat :=
  (.string (String.ofList (blockValue content)), content.length + 5)

theorem read?_block (body : List Char) :
    read? '"' ('"' :: '"' :: body) = (blockContent? ' ' body).map block := rfl

theorem read?_quoted {rest : List Char} (h : rest.take 2 ≠ ['"', '"']) :
    read? '"' rest = (quotedContent? false rest).bind quoted? := by
  unfold read?
  rw [if_neg (by decide), if_neg (by decide), if_neg (by decide), if_neg (by decide), if_pos rfl]
  split
  · exact absurd rfl h
  · congr 1
    funext content
    cases hvalue : unescape? content <;> simp [quoted?, hvalue]

/-- A block string is read up to its closing quotes. -/
theorem lexeme_block {body : List Char} {t : Token} {n : Nat}
    (h : read? '"' ('"' :: '"' :: body) = some (t, n)) :
    ∃ r y, '"' :: '"' :: body = r ++ y ∧ r.length = n ∧ Lexeme '"' r y t := by
  rw [read?_block] at h
  obtain ⟨content, hcontent, hblock⟩ := Option.map_eq_some_iff.mp h
  obtain ⟨y, hy, hx⟩ := blockContent?_eq_some hcontent
  have hn : ('"' :: '"' :: (content ++ ['"', '"', '"'])).length = n := by
    cases hblock
    simp
  refine ⟨'"' :: '"' :: (content ++ ['"', '"', '"']), y, by simp [hy], hn, ?_⟩
  apply Lexeme.of_forall
  intro x
  rw [hn, List.cons_append, List.cons_append, List.append_assoc, read?_block]
  simp only [List.cons_append, List.nil_append, hx x, Option.map_some, hblock]

theorem take_two_append_quote {content x y : List Char}
    (h : (content ++ '"' :: x).take 2 = ['"', '"']) (hxy : x.head? = some '"' → y.head? = some '"') :
    (content ++ '"' :: y).take 2 = ['"', '"'] := by
  match content with
  | [] =>
    have hx : x.head? = some '"' := by
      cases x with
      | nil => simp at h
      | cons d x => simpa using h
    cases y with
    | nil => simpa using hxy hx
    | cons d y => simpa using hxy hx
  | [_] => simpa using h
  | _ :: _ :: _ => simpa using h

/-- A string is read up to its closing quote. -/
theorem lexeme_quoted {rest : List Char} {t : Token} {n : Nat}
    (hquotes : rest.take 2 ≠ ['"', '"']) (h : read? '"' rest = some (t, n)) :
    ∃ r y, rest = r ++ y ∧ r.length = n ∧ Lexeme '"' r y t := by
  rw [read?_quoted hquotes] at h
  obtain ⟨content, hcontent, hquoted⟩ := Option.bind_eq_some_iff.mp h
  obtain ⟨y, rfl, hx⟩ := quotedContent?_eq_some hcontent
  have hn : (content ++ ['"']).length = n := by
    obtain ⟨value, -, hvalue⟩ := Option.map_eq_some_iff.mp hquoted
    cases hvalue
    simp
  have hread : ∀ x, (content ++ '"' :: x).take 2 ≠ ['"', '"'] →
      read? '"' (content ++ ['"'] ++ x) = some (t, n) := by
    intro x hne
    rw [List.append_assoc, List.singleton_append, read?_quoted hne, hx x]
    exact hquoted
  refine ⟨content ++ ['"'], y, by simp, hn, ?_, ?_⟩
  · intro x hsame
    rw [hn]
    apply hread
    intro hne
    exact hquotes (take_two_append_quote hne fun hquote => hsame '"' hquote)
  · intro b v z hb hz
    rw [hread] at hz
    · rw [hn]
      exact (Option.some.inj hz).symm
    · intro hne
      apply hquotes
      apply take_two_append_quote hne
      intro hquote
      cases hquote
      contradiction

theorem lexeme_string {rest : List Char} {t : Token} {n : Nat} (h : read? '"' rest = some (t, n)) :
    ∃ r y, rest = r ++ y ∧ r.length = n ∧ Lexeme '"' r y t := by
  by_cases hquotes : rest.take 2 = ['"', '"']
  · rw [← List.take_append_drop 2 rest, hquotes] at h ⊢
    exact lexeme_block h
  · exact lexeme_quoted hquotes h

/-- What is read as a token is a lexeme. -/
theorem read?_eq_some {c : Char} {rest : List Char} {t : Token} {n : Nat}
    (h : read? c rest = some (t, n)) : ∃ r y, rest = r ++ y ∧ r.length = n ∧ Lexeme c r y t := by
  by_cases hname : isNameStart c = true
  · rw [read?_name hname] at h
    cases h
    exact ⟨_, _, List.takeWhile_append_dropWhile.symm, rfl, lexeme_name hname rest⟩
  · rw [Bool.not_eq_true] at hname
    by_cases hnumber : c = '-' ∨ c.isDigit = true
    · rw [read?_number hname hnumber] at h
      obtain ⟨t', ht, hz⟩ := Option.map_eq_some_iff.mp h
      cases hz
      exact ⟨_, _, List.takeWhile_append_dropWhile.symm, rfl, lexeme_number hname hnumber ht⟩
    · by_cases hpunctuator : isPunctuator c = true
      · rw [read?_punctuator hpunctuator] at h
        cases h
        exact ⟨[], rest, rfl, rfl, lexeme_punctuator hpunctuator rest⟩
      · by_cases hdot : c = '.'
        · subst hdot
          obtain ⟨y, rfl, rfl, hl⟩ := lexeme_ellipsis h
          exact ⟨['.', '.'], y, rfl, rfl, hl⟩
        · by_cases hquote : c = '"'
          · subst hquote
            exact lexeme_string h
          · simp [read?, hname, hnumber, hpunctuator, hdot, hquote] at h

/-- The characters that a token starts with. -/
theorem start_of_read? {c : Char} {rest : List Char} {z : Token × Nat}
    (h : read? c rest = some z) :
    isNameStart c = true ∨ c = '-' ∨ c.isDigit = true ∨ isPunctuator c = true ∨ c = '.' ∨
      c = '"' := by
  apply Decidable.byContradiction
  intro hnone
  simp only [not_or] at hnone
  obtain ⟨hname, hminus, hdigit, hpunctuator, hdot, hquote⟩ := hnone
  simp [read?, hname, hminus, hdigit, hpunctuator, hdot, hquote] at h

theorem number?_ne_punctuator (cs : List Char) (d : Char) : number? cs ≠ some (.punctuator d) := by
  intro h
  simp only [number?] at h
  split at h
  · contradiction
  · split at h
    · simp [intToken?] at h
    · split at h
      · contradiction
      · split at h
        · simp [floatToken] at h
        · simp [floatToken] at h
    · simp [floatToken] at h

theorem read?_eq_punctuator {c d : Char} {rest : List Char} {n : Nat}
    (h : read? c rest = some (.punctuator d, n)) : c = d ∧ n = 0 := by
  by_cases hname : isNameStart c = true
  · rw [read?_name hname] at h
    cases h
  · by_cases hnumber : c = '-' ∨ c.isDigit = true
    · rw [read?_number (by simpa using hname) hnumber] at h
      obtain ⟨t, ht, hz⟩ := Option.map_eq_some_iff.mp h
      cases hz
      exact absurd ht (number?_ne_punctuator _ d)
    · obtain hstart | hstart | hstart | hpunctuator | rfl | rfl := start_of_read? h
      · contradiction
      · exact absurd (Or.inl hstart) hnumber
      · exact absurd (Or.inr hstart) hnumber
      · rw [read?_punctuator hpunctuator] at h
        cases h
        exact ⟨rfl, rfl⟩
      · rw [read?_dot] at h
        split at h <;> cases h
      · by_cases hquotes : rest.take 2 = ['"', '"']
        · rw [← List.take_append_drop 2 rest, hquotes] at h
          obtain ⟨content, -, hblock⟩ := Option.map_eq_some_iff.mp h
          cases hblock
        · rw [read?_quoted hquotes] at h
          obtain ⟨content, -, hquoted⟩ := Option.bind_eq_some_iff.mp h
          obtain ⟨value, -, hvalue⟩ := Option.map_eq_some_iff.mp hquoted
          cases hvalue

/-- No token starts with a blank. -/
theorem isBlank_of_read? {c : Char} {rest : List Char} {z : Token × Nat}
    (h : read? c rest = some z) : isBlank c = false := by
  obtain hname | rfl | hdigit | hpunctuator | rfl | rfl := start_of_read? h
  · exact isBlank_of_isNameChar (isNameChar_of_isNameStart hname)
  · rfl
  · exact isBlank_of_isNameChar (isNameChar_of_isDigit hdigit)
  · simp only [isPunctuator, List.contains_iff_mem, List.mem_cons, List.not_mem_nil,
      or_false] at hpunctuator
    obtain rfl | rfl | rfl | rfl | rfl | rfl | rfl | rfl | rfl | rfl | rfl | rfl | rfl :=
      hpunctuator <;> rfl
  · rfl
  · rfl

end Token

end QueryBindings
