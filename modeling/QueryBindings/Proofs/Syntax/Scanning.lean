import QueryBindings.Proofs.Syntax.Lexemes
/-!
The tokens of the parts of a text.

What a scan finds in a part of a text does not depend on what follows it, as long as the part ends
where a token must end. So the tokens of a text can be attributed to parts of it, and a part that is
cut out has the same tokens as before.
-/
namespace QueryBindings.Token

open Text

/-! ### One step of a scan -/

abbrev EndsComment (c : Char) : Prop := c = '\n' ∨ c = '\r'

/-- A comment goes up to a character that ends it. -/
theorem afterComment_append {k : List Char} {e : Char} (hk : ∀ d ∈ k, ¬EndsComment d)
    (he : EndsComment e) (y : List Char) : afterComment (k ++ e :: y) = y := by
  induction k with
  | nil => exact if_pos he
  | cons d k ih =>
    rw [List.cons_append, afterComment, if_neg (hk d (by simp))]
    exact ih fun d hd => hk d (by simp [hd])

theorem afterComment_of_forall {k : List Char} (hk : ∀ d ∈ k, ¬EndsComment d) :
    afterComment k = [] := by
  induction k with
  | nil => rfl
  | cons d k ih =>
    rw [afterComment, if_neg (hk d (by simp))]
    exact ih fun d hd => hk d (by simp [hd])

/-- A comment ends in the text or with the text. -/
theorem comment_cases (cs : List Char) :
    (∀ d ∈ cs, ¬EndsComment d) ∨
      ∃ k e y, cs = k ++ e :: y ∧ (∀ d ∈ k, ¬EndsComment d) ∧ EndsComment e := by
  induction cs with
  | nil => exact Or.inl (by simp)
  | cons c cs ih =>
    by_cases hc : EndsComment c
    · exact Or.inr ⟨[], c, cs, rfl, by simp, hc⟩
    · obtain hall | ⟨k, e, y, rfl, hk, he⟩ := ih
      · exact Or.inl (List.forall_mem_cons.mpr ⟨hc, hall⟩)
      · exact Or.inr ⟨c :: k, e, y, rfl, List.forall_mem_cons.mpr ⟨hc, hk⟩, he⟩

/-- A text is empty, or it goes on after an ignored character, a comment or a token, or it ends in a
comment, or it starts with no token. -/
theorem scan_induction {motive : List Char → Prop} (nil : motive [])
    (ignored : ∀ c rest, isIgnored c = true → motive rest → motive (c :: rest))
    (comment : ∀ k e y, (∀ d ∈ k, ¬EndsComment d) → EndsComment e → motive y →
      motive ('#' :: (k ++ e :: y)))
    (lastComment : ∀ k, (∀ d ∈ k, ¬EndsComment d) → motive ('#' :: k))
    (token : ∀ c r y t, isIgnored c = false → c ≠ '#' → Lexeme c r y t → motive y →
      motive (c :: (r ++ y)))
    (stuck : ∀ c rest, isIgnored c = false → c ≠ '#' → read? c rest = none → motive (c :: rest)) :
    ∀ cs, motive cs
  | [] => nil
  | c :: rest => by
    cases hignored : isIgnored c with
    | true =>
      exact ignored c rest hignored
        (scan_induction nil ignored comment lastComment token stuck rest)
    | false =>
      by_cases hcomment : c = '#'
      · subst hcomment
        obtain hall | ⟨k, e, y, hrest, hk, he⟩ := comment_cases rest
        · exact lastComment rest hall
        · rw [hrest]
          exact comment k e y hk he
            (scan_induction nil ignored comment lastComment token stuck y)
      · cases hread : read? c rest with
        | none => exact stuck c rest hignored hcomment hread
        | some z =>
          obtain ⟨r, y, hrest, -, hl⟩ := read?_eq_some (t := z.1) (n := z.2) hread
          rw [hrest]
          exact token c r y z.1 hignored hcomment hl
            (scan_induction nil ignored comment lastComment token stuck y)
termination_by cs => cs.length
decreasing_by all_goals simp_all only [List.length_cons, List.length_append]; omega

variable {p q : Position} {c : Char} {rest : List Char}

theorem scanFrom_ignored (hc : isIgnored c = true) (p : Position) (rest : List Char) :
    scanFrom p (c :: rest) = scanFrom (p.afterIgnored c) rest := by
  rw [scanFrom, if_pos hc]

/-- A comment is passed over, and the next line follows. -/
theorem scanFrom_comment {k : List Char} {e : Char} (hk : ∀ d ∈ k, ¬EndsComment d)
    (he : EndsComment e) (p : Position) (y : List Char) :
    scanFrom p ('#' :: (k ++ e :: y)) = scanFrom p.nextLine y := by
  rw [scanFrom, if_neg (by decide), if_pos rfl, afterComment_append hk he]

theorem scanFrom_lastComment {k : List Char} (hk : ∀ d ∈ k, ¬EndsComment d) (p : Position) :
    scanFrom p ('#' :: k) = some [] := by
  rw [scanFrom, if_neg (by decide), if_pos rfl, afterComment_of_forall hk, scanFrom]

/-- A token stands at the position where its first character does. -/
theorem scanFrom_token {r y : List Char} {t : Token} (hc : isIgnored c = false) (hc' : c ≠ '#')
    (h : read? c (r ++ y) = some (t, r.length)) (p : Position) :
    scanFrom p (c :: (r ++ y)) =
      (scanFrom (p.afterLexeme (c :: r)) y).map (⟨p, t⟩ :: ·) := by
  rw [scanFrom, if_neg (by simp [hc]), if_neg hc', h]
  simp

/-- A character that starts no token stops a scan. -/
theorem scanFrom_stuck (hc : isIgnored c = false) (hc' : c ≠ '#') (h : read? c rest = none)
    (p : Position) : scanFrom p (c :: rest) = none := by
  rw [scanFrom, if_neg (by simp [hc]), if_neg hc', h]

/-! ### Tokens without positions -/

def lex (cs : List Char) : Option (List Token) :=
  (scanFrom .start cs).map (·.map (·.token))

/-- What tokens a text has doesn't depend on where it starts. -/
theorem map_scanFrom (p : Position) (cs : List Char) :
    (scanFrom p cs).map (·.map (·.token)) = lex cs := by
  rw [lex]
  generalize Position.start = q
  induction cs using scan_induction generalizing p q with
  | nil => simp only [scanFrom]
  | ignored c rest hc ih => rw [scanFrom_ignored hc, scanFrom_ignored hc, ih]
  | comment k e y hk he ih => rw [scanFrom_comment hk he, scanFrom_comment hk he, ih]
  | lastComment k hk => rw [scanFrom_lastComment hk, scanFrom_lastComment hk]
  | token c r y t hc hc' hl ih =>
    have hread := hl.again y fun _ hd => hd
    rw [scanFrom_token hc hc' hread, scanFrom_token hc hc' hread, Option.map_map, Option.map_map]
    have := congrArg (Option.map (t :: ·)) (ih (p.afterLexeme (c :: r)) (q.afterLexeme (c :: r)))
    rw [Option.map_map, Option.map_map] at this
    exact this
  | stuck c rest hc hc' h => rw [scanFrom_stuck hc hc' h, scanFrom_stuck hc hc' h]

@[simp] theorem lex_nil : lex [] = some [] := by
  rw [lex, scanFrom]
  rfl

theorem lex_ignored (hc : isIgnored c = true) (rest : List Char) : lex (c :: rest) = lex rest := by
  rw [lex, scanFrom_ignored hc, map_scanFrom]

theorem lex_comment {k : List Char} {e : Char} (hk : ∀ d ∈ k, ¬EndsComment d)
    (he : EndsComment e) (y : List Char) : lex ('#' :: (k ++ e :: y)) = lex y := by
  rw [lex, scanFrom_comment hk he, map_scanFrom]

theorem lex_lastComment {k : List Char} (hk : ∀ d ∈ k, ¬EndsComment d) :
    lex ('#' :: k) = some [] := by
  rw [lex, scanFrom_lastComment hk]
  rfl

theorem lex_token {r y : List Char} {t : Token} (hc : isIgnored c = false) (hc' : c ≠ '#')
    (h : read? c (r ++ y) = some (t, r.length)) :
    lex (c :: (r ++ y)) = (lex y).map (t :: ·) := by
  rw [lex, scanFrom_token hc hc' h, ← map_scanFrom (Position.start.afterLexeme (c :: r)),
    Option.map_map, Option.map_map]
  rfl

theorem lex_stuck (hc : isIgnored c = false) (hc' : c ≠ '#') (h : read? c rest = none) :
    lex (c :: rest) = none := by
  rw [lex, scanFrom_stuck hc hc' h]
  rfl

/-- Ignored characters before a text don't change its tokens. -/
theorem lex_append_of_ignored {lead : List Char} (h : ∀ c ∈ lead, isIgnored c = true)
    (cs : List Char) : lex (lead ++ cs) = lex cs := by
  induction lead with
  | nil => rfl
  | cons c lead ih =>
    obtain ⟨hc, hlead⟩ := List.forall_mem_cons.mp h
    rw [List.cons_append, lex_ignored hc, ih hlead]

theorem exists_scan {cs : List Char} {ts : List Token} (h : lex cs = some ts) :
    ∃ tokens, scan (String.ofList cs) = some tokens ∧ tokens.map (·.token) = ts := by
  obtain ⟨tokens, hscan, htokens⟩ := Option.map_eq_some_iff.mp h
  refine ⟨tokens, ?_, htokens⟩
  rw [scan, String.toList_ofList, hscan]

theorem scan_eq_none {cs : List Char} (h : lex cs = none) : scan (String.ofList cs) = none := by
  rw [scan, String.toList_ofList]
  exact Option.map_eq_none_iff.mp h

/-- What is in front of nothing but ignored characters and comments holds no token either. -/
theorem lex_eq_nil_of_append {u v : List Char} (h : lex (u ++ v) = some []) : lex u = some [] := by
  generalize hcs : u ++ v = cs at h
  induction cs using scan_induction generalizing u with
  | nil => rw [(List.append_eq_nil_iff.mp hcs).1, lex_nil]
  | ignored c rest hc ih =>
    cases u with
    | nil => exact lex_nil
    | cons d u =>
      obtain ⟨rfl, hrest⟩ := List.cons.inj hcs
      rw [lex_ignored hc] at h ⊢
      exact ih hrest h
  | comment k e y hk he ih =>
    cases u with
    | nil => exact lex_nil
    | cons d u =>
      obtain ⟨rfl, hrest⟩ := List.cons.inj hcs
      rw [lex_comment hk he] at h
      obtain ⟨k', rfl, -⟩ | ⟨u', rfl, hy⟩ := List.append_eq_append_iff.mp hrest
      · exact lex_lastComment fun d hd => hk d (List.mem_append_left k' hd)
      · cases u' with
        | nil =>
          rw [List.append_nil]
          exact lex_lastComment hk
        | cons e' u' =>
          obtain ⟨rfl, htail⟩ := List.cons.inj hy
          rw [lex_comment hk he]
          exact ih htail.symm h
  | lastComment k hk =>
    cases u with
    | nil => exact lex_nil
    | cons d u =>
      obtain ⟨rfl, rfl⟩ := List.cons.inj hcs
      exact lex_lastComment fun d hd => hk d (List.mem_append_left v hd)
  | token c r y t hc hc' hl ih =>
    rw [lex_token hc hc' (hl.again y fun _ hd => hd)] at h
    obtain ⟨ts, -, hts⟩ := Option.map_eq_some_iff.mp h
    contradiction
  | stuck c rest hc hc' hread =>
    rw [lex_stuck hc hc' hread] at h
    contradiction

/-- A text that is cut before a blank loses tokens at its end only, or is none at all. -/
theorem lex_of_cut {u v : List Char} {b : Char} {ts us : List Token} (hb : isBlank b = true)
    (h : lex (u ++ b :: v) = some ts) (hu : lex u = some us) : ∃ rest, ts = us ++ rest := by
  induction u using scan_induction generalizing ts us with
  | nil =>
    rw [lex_nil] at hu
    obtain rfl := Option.some.inj hu
    exact ⟨ts, rfl⟩
  | ignored c rest hc ih =>
    rw [List.cons_append, lex_ignored hc] at h
    rw [lex_ignored hc] at hu
    exact ih h hu
  | comment k e y hk he ih =>
    rw [List.cons_append, List.append_assoc, List.cons_append, lex_comment hk he] at h
    rw [lex_comment hk he] at hu
    exact ih h hu
  | lastComment k hk =>
    rw [lex_lastComment hk] at hu
    obtain rfl := Option.some.inj hu
    exact ⟨ts, rfl⟩
  | token c r y t hc hc' hl ih =>
    -- The blank stands right behind the token, or what stands behind it is as before.
    have hread : read? c (r ++ (y ++ b :: v)) = some (t, r.length) := by
      cases y with
      | nil =>
        cases hz : read? c (r ++ b :: v) with
        | none =>
          rw [List.append_nil, List.cons_append, lex_stuck hc hc' hz] at h
          contradiction
        | some z => rw [List.nil_append, hz, hl.blank b v z hb hz]
      | cons d y => exact hl.again _ fun _ hd => hd
    rw [lex_token hc hc' (hl.again y fun _ hd => hd)] at hu
    obtain ⟨us', hus, rfl⟩ := Option.map_eq_some_iff.mp hu
    rw [List.cons_append, List.append_assoc, lex_token hc hc' hread] at h
    obtain ⟨ts', hts, rfl⟩ := Option.map_eq_some_iff.mp h
    obtain ⟨rest, rfl⟩ := ih hts hus
    exact ⟨rest, rfl⟩
  | stuck c rest hc hc' hread =>
    rw [lex_stuck hc hc' hread] at hu
    contradiction

/-! ### Parts of a text -/

/-- A scan at `p` finds the tokens `ts` in the text `u` and goes on behind it at `q`, whatever
follows. -/
inductive Passes : Position → List Char → List PlacedToken → Position → Prop
  | nil (p : Position) : Passes p [] [] p
  | ignored {p q : Position} {c : Char} {u : List Char} {ts : List PlacedToken}
      (hc : isIgnored c = true) (h : Passes (p.afterIgnored c) u ts q) : Passes p (c :: u) ts q
  | comment {p q : Position} {k u : List Char} {e : Char} {ts : List PlacedToken}
      (hk : ∀ d ∈ k, ¬EndsComment d) (he : EndsComment e) (h : Passes p.nextLine u ts q) :
      Passes p ('#' :: (k ++ e :: u)) ts q
  | token {p q : Position} {c : Char} {r u : List Char} {t : Token} {ts : List PlacedToken}
      (hc : isIgnored c = false) (hc' : c ≠ '#')
      (hread : ∀ x, read? c (r ++ (u ++ x)) = some (t, r.length))
      (h : Passes (p.afterLexeme (c :: r)) u ts q) : Passes p (c :: (r ++ u)) (⟨p, t⟩ :: ts) q

variable {u : List Char} {ts : List PlacedToken}

/-- A scan that passes a part of a text goes on behind it. -/
theorem Passes.scanFrom (h : Passes p u ts q) (x : List Char) :
    scanFrom p (u ++ x) = (scanFrom q x).map (ts ++ ·) := by
  induction h with
  | nil => simp
  | ignored hc _ ih => rw [List.cons_append, scanFrom_ignored hc, ih]
  | comment hk he _ ih =>
    rw [List.cons_append, List.append_assoc, List.cons_append, scanFrom_comment hk he, ih]
  | token hc hc' hread _ ih =>
    rw [List.cons_append, List.append_assoc, scanFrom_token hc hc' (hread x), ih, Option.map_map]
    rfl

theorem Passes.lex (h : Passes p u ts q) (x : List Char) :
    lex (u ++ x) = (lex x).map (ts.map (·.token) ++ ·) := by
  rw [← map_scanFrom p, h.scanFrom, ← map_scanFrom q, Option.map_map, Option.map_map]
  congr 1
  funext l
  simp

/-- The first token stands behind ignored characters and comments. -/
theorem Passes.exists_gap {s : PlacedToken} (h : Passes p u (s :: ts) q) :
    ∃ gap c w, u = gap ++ c :: w ∧ Passes p gap [] s.position ∧
      Passes s.position (c :: w) (s :: ts) q ∧ isIgnored c = false ∧ c ≠ '#' ∧
      isBlank c = false := by
  generalize hts : s :: ts = l at h
  induction h with
  | nil => contradiction
  | @ignored p q c u l hc h ih =>
    obtain ⟨gap, d, w, rfl, hgap, hw, hd⟩ := ih hts
    exact ⟨c :: gap, d, w, rfl, .ignored hc hgap, hw, hd⟩
  | @comment p q k u e l hk he h ih =>
    obtain ⟨gap, d, w, rfl, hgap, hw, hd⟩ := ih hts
    exact ⟨'#' :: (k ++ e :: gap), d, w, by simp, .comment hk he hgap, hw, hd⟩
  | @token p q c r u t l hc hc' hread h =>
    obtain ⟨rfl, rfl⟩ := List.cons.inj hts
    exact ⟨[], c, r ++ u, rfl, .nil _, .token hc hc' hread h, hc, hc',
      isBlank_of_read? (hread [])⟩

/-- A token in front of characters up to a closing brace. -/
theorem Passes.token_brace {r inner x : List Char} {t : Token}
    (hc : isIgnored c = false) (hc' : c ≠ '#') (hl : Lexeme c r (inner ++ '\x7d' :: x) t)
    (h : Passes (p.afterLexeme (c :: r)) (inner ++ ['\x7d']) ts q) :
    Passes p (c :: (r ++ inner) ++ ['\x7d']) (⟨p, t⟩ :: ts) q ∧
      Token.lex (c :: (r ++ inner)) = (Token.lex inner).map (t :: ·) := by
  constructor
  · have hread : ∀ z, read? c (r ++ (inner ++ ['\x7d'] ++ z)) = some (t, r.length) := by
      intro z
      apply hl.again
      cases inner <;> simp
    simpa using Passes.token hc hc' hread h
  · apply lex_token hc hc'
    apply hl.again
    cases inner <;> simp

/-- The text of tokens that end in a closing brace ends in that brace. -/
theorem exists_passes {cs : List Char} {block more : List PlacedToken} {tokens : List Token}
    (h : Token.scanFrom p cs = some (block ++ more))
    (hblock : block.map (·.token) = tokens ++ [.punctuator '\x7d']) :
    ∃ inner x q, cs = inner ++ '\x7d' :: x ∧ Passes p (inner ++ ['\x7d']) block q ∧
      Token.lex inner = some tokens ∧ Token.scanFrom q x = some more := by
  have hne : block ≠ [] := by
    rintro rfl
    simp at hblock
  induction cs using scan_induction generalizing p block tokens with
  | nil =>
    rw [Token.scanFrom, Option.some.injEq, eq_comm, List.append_eq_nil_iff] at h
    exact absurd h.1 hne
  | ignored c rest hc ih =>
    rw [scanFrom_ignored hc] at h
    obtain ⟨inner, x, q, rfl, hpasses, hlex, hx⟩ := ih h hblock hne
    refine ⟨c :: inner, x, q, rfl, .ignored hc hpasses, ?_, hx⟩
    rw [lex_ignored hc, hlex]
  | comment k e y hk he ih =>
    rw [scanFrom_comment hk he] at h
    obtain ⟨inner, x, q, rfl, hpasses, hlex, hx⟩ := ih h hblock hne
    refine ⟨'#' :: (k ++ e :: inner), x, q, by simp, ?_, ?_, hx⟩
    · simpa using Passes.comment hk he hpasses
    · rw [lex_comment hk he, hlex]
  | lastComment k hk =>
    rw [scanFrom_lastComment hk, Option.some.injEq, eq_comm, List.append_eq_nil_iff] at h
    exact absurd h.1 hne
  | token c r y t hc hc' hl ih =>
    rw [scanFrom_token hc hc' (hl.again y fun _ hd => hd)] at h
    obtain ⟨l, hscan, hl'⟩ := Option.map_eq_some_iff.mp h
    cases block with
    | nil => contradiction
    | cons s block =>
      obtain ⟨rfl, rfl⟩ := List.cons.inj hl'
      cases block with
      | nil =>
        obtain ⟨rfl, hbrace⟩ : tokens = [] ∧ t = .punctuator '\x7d' := by
          cases tokens with
          | nil => simpa using hblock
          | cons _ tokens => simp at hblock
        subst hbrace
        obtain ⟨rfl, hr⟩ := read?_eq_punctuator (hl.again y fun _ hd => hd)
        obtain rfl := List.length_eq_zero_iff.mp hr
        refine ⟨[], y, _, rfl, ?_, lex_nil, hscan⟩
        exact .token (r := []) hc hc' (fun x => read?_punctuator rfl x) (.nil _)
      | cons s block =>
        obtain ⟨tokens, rfl⟩ : ∃ rest, tokens = t :: rest := by
          cases tokens with
          | nil => simp at hblock
          | cons t' tokens => exact ⟨tokens, by simpa using (List.cons.inj hblock).1.symm⟩
        obtain ⟨inner, x, q, rfl, hpasses, hlex, hx⟩ :=
          ih hscan (List.cons.inj hblock).2 (by simp)
        obtain ⟨hpasses', hlex'⟩ := Passes.token_brace hc hc' hl hpasses
        refine ⟨c :: (r ++ inner), x, q, by simp, hpasses', ?_, hx⟩
        rw [hlex', hlex]
        rfl
  | stuck c rest hc hc' hread =>
    rw [scanFrom_stuck hc hc' hread] at h
    contradiction

end QueryBindings.Token
