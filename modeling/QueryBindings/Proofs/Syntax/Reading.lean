import QueryBindings.Proofs.Syntax.Lookahead
import QueryBindings.Proofs.Syntax.Scanning
/-!
Reading given tokens.

`Reads` says what a parser makes of tokens that it is given, and which of them it leaves. Parsers are
put together, each going on from the tokens that the one before it has left. A text has given tokens
if it is put together of names, punctuators and ignored characters.
-/
namespace QueryBindings

namespace Parser

variable {α β : Type} {P : α → Prop} {Q : β → Prop} {t : Token} {a b c : List Token}

/-- Of the tokens `a` the parser leaves the tokens `b`, and its result has a property. -/
def Reads (a b : List Token) (P : α → Prop) (p : Parser α) : Prop :=
  ∀ input, tokensOf input = a → ∃ x r, p input = some (x, r) ∧ tokensOf r = b ∧ P x

theorem Reads.pure {x : α} (h : P x) : Reads a a P (Pure.pure x : Parser α) :=
  fun input hinput => ⟨x, input, rfl, hinput, h⟩

/-- A parser reads on where the one before it has stopped. -/
theorem Reads.bind {p : Parser α} {f : α → Parser β} (hp : Reads a b P p)
    (hf : ∀ x, P x → Reads b c Q (f x)) : Reads a c Q (p >>= f) := by
  intro input hinput
  obtain ⟨x, m, hx, hm, hPx⟩ := hp input hinput
  obtain ⟨y, r, hy, hr, hQy⟩ := hf x hPx m hm
  exact ⟨y, r, bind_eq_some.mpr ⟨x, m, hx, hy⟩, hr, hQy⟩

/-! ### Single tokens -/

theorem reads_peek (a : List Token) : Reads a a (· = a.head?) peek := by
  rintro input rfl
  exact ⟨_, input, rfl, rfl, List.head?_map.symm⟩

theorem reads_take {f : Token → Option α} {x : α} (h : f t = some x) :
    Reads (t :: a) a (· = x) (take f) := by
  intro input hinput
  obtain ⟨u, r, rfl, rfl, hr⟩ := List.map_eq_cons_iff.mp hinput
  exact ⟨x, r, by rw [take, h]; rfl, hr, rfl⟩

theorem reads_punctuator (d : Char) (a : List Token) :
    Reads (.punctuator d :: a) a (· = ()) (punctuator d) := reads_take (by simp)

theorem reads_keyword (word : String) (a : List Token) :
    Reads (.name word :: a) a (· = ()) (keyword word) := reads_take (by simp)

theorem reads_name (text : String) (a : List Token) :
    Reads (.name text :: a) a (· = text) name := reads_take rfl

theorem reads_position (t : Token) (a : List Token) :
    Reads (t :: a) (t :: a) (fun _ => True) position := by
  intro input hinput
  obtain ⟨u, r, rfl, rfl, hr⟩ := List.map_eq_cons_iff.mp hinput
  exact ⟨u.position, u :: r, rfl, hinput, trivial⟩

theorem reads_sees (t : Token) (a : List Token) : Reads (t :: a) (t :: a) (· = true) (sees t) := by
  apply (reads_peek _).bind
  rintro x rfl
  exact .pure (by simp)

theorem reads_sees_other (h : a.head? ≠ some t) : Reads a a (· = false) (sees t) := by
  apply (reads_peek _).bind
  rintro x rfl
  exact .pure (by simp [h])

/-! ### Repetition -/

theorem reads_itemsWhile_none {starts : Token → Bool} (item : Parser α)
    (h : a.head?.any starts = false) : Reads a a (· = []) (itemsWhile starts item) := by
  intro input hinput
  have hnone : Reads a a (· = []) (itemsWhileWithin starts item (input.length + 1)) := by
    apply (reads_peek _).bind
    rintro x rfl
    rw [h]
    exact .pure rfl
  exact hnone input hinput

theorem reads_itemsUntil_one {d : Char} {item : Parser α}
    (hitem : Reads a (.punctuator d :: b) P item) (hne : a ≠ [])
    (hother : a.head? ≠ some (.punctuator d)) :
    Reads a b (fun l => ∃ x, l = [x] ∧ P x) (itemsUntil d item) := by
  intro input hinput
  obtain ⟨n, hn⟩ : ∃ n, input.length = n + 1 := by
    apply Nat.exists_eq_succ_of_ne_zero
    intro hlength
    rw [List.eq_nil_of_length_eq_zero hlength] at hinput
    exact hne hinput.symm
  have hlast : Reads (.punctuator d :: b) b (· = []) (itemsWithin d item (n + 1)) := by
    apply (reads_sees _ _).bind
    rintro _ rfl
    exact (reads_punctuator d b).bind fun _ _ => .pure rfl
  have hone : Reads a b (fun l => ∃ x, l = [x] ∧ P x) (itemsWithin d item (n + 2)) := by
    apply (reads_sees_other hother).bind
    rintro _ rfl
    apply hitem.bind
    intro x hx
    apply hlast.bind
    rintro _ rfl
    exact .pure ⟨x, rfl, hx⟩
  rw [itemsUntil, hn]
  exact hone input hinput

/-- A text of one item. -/
theorem parseAll_of_reads {item : Parser α} {text : String} {tokens : List PlacedToken}
    (hscan : Token.scan text = some tokens) (hne : tokens ≠ [])
    (h : Reads (tokensOf tokens) [] P item) : ∃ x, parseAll item text = some [x] ∧ P x := by
  have hone : Reads (tokensOf tokens) [] (fun l => ∃ x, l = [x] ∧ P x)
      (itemsWhileWithin (fun _ => true) item (tokens.length + 1)) := by
    obtain ⟨n, hn⟩ := Nat.exists_eq_succ_of_ne_zero fun h => hne (List.eq_nil_of_length_eq_zero h)
    rw [hn]
    apply (reads_peek _).bind
    rintro x rfl
    have hany : (tokensOf tokens).head?.any (fun _ => true) = true := by
      cases tokens with
      | nil => contradiction
      | cons t tokens => rfl
    rw [hany]
    have hnone : Reads [] [] (· = []) (itemsWhileWithin (fun _ => true) item (n + 1)) := by
      apply (reads_peek _).bind
      rintro _ rfl
      exact .pure rfl
    apply h.bind
    intro x hx
    apply hnone.bind
    rintro _ rfl
    exact .pure ⟨x, rfl, hx⟩
  obtain ⟨l, r, hl, hr, x, rfl, hx⟩ := hone tokens rfl
  obtain rfl := List.map_eq_nil_iff.mp hr
  refine ⟨x, ?_, hx⟩
  have hitems : itemsWhile (fun _ => true) item tokens = some ([x], []) := hl
  simp [parseAll, hscan, hitems]

end Parser

namespace Token

def IsName (s : String) : Prop :=
  ∃ c r, s.toList = c :: r ∧ isNameStart c = true ∧ ∀ d ∈ r, isNameChar d = true

theorem isIgnored_of_isNameStart {c : Char} (h : isNameStart c = true) : isIgnored c = false := by
  apply Decidable.byContradiction
  intro hignored
  simp only [isIgnored, List.contains_iff_mem, List.mem_cons, List.not_mem_nil, or_false,
    Bool.not_eq_false] at hignored
  obtain rfl | rfl | rfl | rfl | rfl | rfl := hignored <;> contradiction

/-- A name is scanned as a whole if nothing behind it could be a part of it. -/
theorem lex_name {s : String} (h : IsName s) {cs : List Char}
    (hcs : ∀ d ∈ cs.head?, isNameChar d = false) :
    lex (s.toList ++ cs) = (lex cs).map (.name s :: ·) := by
  obtain ⟨c, r, hs, hc, hr⟩ := h
  have htail : (r ++ cs).takeWhile isNameChar = r := by
    rw [List.takeWhile_append_of_pos hr]
    cases cs with
    | nil => simp
    | cons d cs => simp [hcs d rfl]
  have hread : read? c (r ++ cs) = some (.name s, r.length) := by
    rw [read?_name hc, htail, ← hs, String.ofList_toList]
  rw [hs, List.cons_append]
  exact lex_token (isIgnored_of_isNameStart hc) (by rintro rfl; contradiction) hread

theorem lex_punctuator {c : Char} (h : isPunctuator c = true) (cs : List Char) :
    lex (c :: cs) = (lex cs).map (.punctuator c :: ·) := by
  have hignored : isIgnored c = false ∧ c ≠ '#' := by
    simp only [isPunctuator, List.contains_iff_mem, List.mem_cons, List.not_mem_nil, or_false] at h
    obtain rfl | rfl | rfl | rfl | rfl | rfl | rfl | rfl | rfl | rfl | rfl | rfl | rfl := h <;>
      exact ⟨rfl, by decide⟩
  exact lex_token (r := []) hignored.1 hignored.2 (read?_punctuator h cs)

end Token

end QueryBindings
