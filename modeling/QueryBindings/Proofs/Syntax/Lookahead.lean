import Mathlib.Data.List.Forall2
import QueryBindings.Syntax.Parser
/-!
Parsers look one token ahead.

What a parser makes of a list of tokens depends on the tokens that it takes and on the next one
only, and their positions find their way into the result but never decide anything. A parser that
ends with a closing punctuator does not depend on the next token either.
-/
namespace QueryBindings.Parser

variable {α β γ δ : Type} {R : α → β → Prop} {S : γ → δ → Prop} {e d : Bool}

abbrev tokensOf (input : List PlacedToken) : List Token := input.map (·.token)

/-- When `p` succeeds, `q` takes the same tokens wherever they stand in front of the same next token,
and the results are related. At least one token is taken if `eats` says so. -/
def Alike (eats : Bool) (R : α → β → Prop) (p : Parser α) (q : Parser β) : Prop :=
  ∀ input x r, p input = some (x, r) → ∃ used, input = used ++ r ∧ (eats = true → used ≠ []) ∧
    ∀ used' r', tokensOf used' = tokensOf used → (tokensOf r').head? = (tokensOf r).head? →
      ∃ y, q (used' ++ r') = some (y, r') ∧ R x y

/-- When `p` succeeds, the last token that it takes is the punctuator `close`, and `q` takes the
same tokens wherever they stand, whatever follows. -/
def Closed (close : Char) (R : α → β → Prop) (p : Parser α) (q : Parser β) : Prop :=
  ∀ input x r, p input = some (x, r) → ∃ used, input = used ++ r ∧
    (∃ ts, tokensOf used = ts ++ [.punctuator close]) ∧
    ∀ used' r', tokensOf used' = tokensOf used → ∃ y, q (used' ++ r') = some (y, r') ∧ R x y

/-! ### Rules -/

theorem bind_eq_some {p : Parser α} {f : α → Parser γ} {input r : List PlacedToken} {z : γ} :
    (p >>= f) input = some (z, r) ↔ ∃ x m, p input = some (x, m) ∧ f x m = some (z, r) := by
  change ((p input).bind fun s => f s.1 s.2) = some (z, r) ↔ _
  rw [Option.bind_eq_some_iff, Prod.exists]

/-- A property of all results that a parser may have. -/
def Gives (P : α → Prop) (p : Parser α) : Prop := ∀ input x r, p input = some (x, r) → P x

theorem Gives.pure {P : α → Prop} {x : α} (h : P x) : Gives P (Pure.pure x : Parser α) := by
  intro input x' r hx
  obtain ⟨rfl, -⟩ := Prod.mk.inj (Option.some.inj hx)
  exact h

theorem Gives.bind {P : γ → Prop} {p : Parser α} {f : α → Parser γ} (h : ∀ x, Gives P (f x)) :
    Gives P (p >>= f) := by
  intro input z r hz
  obtain ⟨x, m, -, hm⟩ := bind_eq_some.mp hz
  exact h x m z r hm

/-- A parser that starts with the position of the next token. -/
theorem position_bind_eq_some {f : Position → Parser α} {input r : List PlacedToken} {x : α}
    (h : (position >>= f) input = some (x, r)) :
    ∃ p, input.head?.map (·.position) = some p ∧ f p input = some (x, r) := by
  obtain ⟨p, input', hp, hx⟩ := bind_eq_some.mp h
  obtain ⟨t, ht, hz⟩ := Option.map_eq_some_iff.mp hp
  obtain ⟨rfl, rfl⟩ := Prod.mk.inj hz
  exact ⟨t.position, by rw [ht]; rfl, hx⟩

theorem Closed.alike {close : Char} {p : Parser α} {q : Parser β} (h : Closed close R p q) :
    Alike true R p q := by
  intro input x r hx
  obtain ⟨used, rfl, ⟨ts, hts⟩, hq⟩ := h input x r hx
  refine ⟨used, rfl, ?_, fun used' r' hused _ => hq used' r' hused⟩
  rintro - rfl
  simp at hts

theorem Alike.weaken {p : Parser α} {q : Parser β} (h : Alike e R p q) : Alike false R p q := by
  intro input x r hx
  obtain ⟨used, hused, -, hq⟩ := h input x r hx
  exact ⟨used, hused, nofun, hq⟩

theorem Alike.imp {T : α → β → Prop} {p : Parser α} {q : Parser β} (h : Alike e R p q)
    (hT : ∀ x y, R x y → T x y) : Alike e T p q := by
  intro input x r hx
  obtain ⟨used, hused, heats, hq⟩ := h input x r hx
  refine ⟨used, hused, heats, ?_⟩
  intro used' r' hused' hr'
  obtain ⟨y, hy, hxy⟩ := hq used' r' hused' hr'
  exact ⟨y, hy, hT x y hxy⟩

theorem Closed.imp {close : Char} {T : α → β → Prop} {p : Parser α} {q : Parser β}
    (h : Closed close R p q) (hT : ∀ x y, R x y → T x y) : Closed close T p q := by
  intro input x r hx
  obtain ⟨used, hused, hts, hq⟩ := h input x r hx
  refine ⟨used, hused, hts, ?_⟩
  intro used' r' hused'
  obtain ⟨y, hy, hxy⟩ := hq used' r' hused'
  exact ⟨y, hy, hT x y hxy⟩

theorem Alike.pure {x : α} {y : β} (h : R x y) :
    Alike false R (Pure.pure x : Parser α) (Pure.pure y : Parser β) := by
  intro input x' r hx
  obtain ⟨rfl, rfl⟩ := Prod.mk.inj (Option.some.inj hx)
  refine ⟨[], rfl, nofun, ?_⟩
  intro used' r' hused _
  rw [List.map_eq_nil_iff.mp hused]
  exact ⟨y, rfl, h⟩

theorem Alike.failure {p : Parser β} : Alike e R (failure : Parser α) p := by
  intro input x r hx
  contradiction

/-- Tokens that stand elsewhere are split in the same way. -/
theorem tokensOf_eq_append {used a b : List PlacedToken}
    (h : tokensOf used = tokensOf (a ++ b)) :
    ∃ a' b', used = a' ++ b' ∧ tokensOf a' = tokensOf a ∧ tokensOf b' = tokensOf b := by
  rw [tokensOf, tokensOf, List.map_append] at h
  exact List.map_eq_append_iff.mp h

theorem head?_tokensOf_append {a a' b b' : List PlacedToken} (ha : tokensOf a' = tokensOf a)
    (hb : a ≠ [] ∨ (tokensOf b').head? = (tokensOf b).head?) :
    (tokensOf (a' ++ b')).head? = (tokensOf (a ++ b)).head? := by
  cases a with
  | nil =>
    rw [List.map_eq_nil_iff.mp ha]
    simpa using hb
  | cons t a =>
    obtain ⟨t', a'', rfl, ht, -⟩ := List.map_eq_cons_iff.mp ha
    simp [ht]

/-- Two parsers one behind the other take the same tokens if each of them does. -/
theorem Alike.bind {p : Parser α} {q : Parser β} {f : α → Parser γ} {g : β → Parser δ}
    (hp : Alike e R p q) (hf : ∀ x y, R x y → Alike d S (f x) (g y)) :
    Alike (e || d) S (p >>= f) (q >>= g) := by
  intro input z r hz
  obtain ⟨x, m, hx, hm⟩ := bind_eq_some.mp hz
  obtain ⟨a, rfl, ha, hq⟩ := hp input x m hx
  obtain ⟨y, -, hxy⟩ := hq a m rfl rfl
  obtain ⟨b, rfl, hb, -⟩ := hf x y hxy m z r hm
  refine ⟨a ++ b, (List.append_assoc a b r).symm, ?_, ?_⟩
  · intro heats hnil
    obtain ⟨ha', hb'⟩ := List.append_eq_nil_iff.mp hnil
    obtain heats | heats := Bool.or_eq_true_iff.mp heats
    · exact ha heats ha'
    · exact hb heats hb'
  · intro used' r' hused hr
    obtain ⟨a', b', rfl, ha', hb'⟩ := tokensOf_eq_append hused
    obtain ⟨y', hy', hxy'⟩ := hq a' (b' ++ r') ha' (head?_tokensOf_append hb' (Or.inr hr))
    obtain ⟨b₀, hb₀, -, hg⟩ := hf x y' hxy' (b ++ r) z r hm
    obtain rfl := List.append_cancel_right hb₀
    obtain ⟨w, hw, hzw⟩ := hg b' r' hb' hr
    refine ⟨w, ?_, hzw⟩
    rw [List.append_assoc]
    exact bind_eq_some.mpr ⟨y', b' ++ r', hy', hw⟩

/-- The first parser takes a token. -/
theorem Alike.bind_eats {p : Parser α} {q : Parser β} {f : α → Parser γ} {g : β → Parser δ}
    (hp : Alike true R p q) (hf : ∀ x y, R x y → Alike e S (f x) (g y)) :
    Alike true S (p >>= f) (q >>= g) := hp.bind hf

/-- The second parser tells whether a token is taken. -/
theorem Alike.bind_rest {p : Parser α} {q : Parser β} {f : α → Parser γ} {g : β → Parser δ}
    (hp : Alike e R p q) (hf : ∀ x y, R x y → Alike d S (f x) (g y)) :
    Alike d S (p >>= f) (q >>= g) := hp.weaken.bind hf

theorem Alike.bind_closed {close : Char} {p : Parser α} {q : Parser β} {f : α → Parser γ}
    {g : β → Parser δ} (hp : Alike e R p q) (hf : ∀ x y, R x y → Closed close S (f x) (g y)) :
    Closed close S (p >>= f) (q >>= g) := by
  intro input z r hz
  obtain ⟨x, m, hx, hm⟩ := bind_eq_some.mp hz
  obtain ⟨a, rfl, -, hq⟩ := hp input x m hx
  obtain ⟨y, -, hxy⟩ := hq a m rfl rfl
  obtain ⟨b, rfl, ⟨ts, hts⟩, -⟩ := hf x y hxy m z r hm
  have hb : b ≠ [] := by
    rintro rfl
    simp at hts
  refine ⟨a ++ b, (List.append_assoc a b r).symm, ⟨tokensOf a ++ ts, ?_⟩, ?_⟩
  · rw [tokensOf, List.map_append, List.append_assoc, ← hts]
  · intro used' r' hused
    obtain ⟨a', b', rfl, ha', hb'⟩ := tokensOf_eq_append hused
    obtain ⟨y', hy', hxy'⟩ := hq a' (b' ++ r') ha' (head?_tokensOf_append hb' (Or.inl hb))
    obtain ⟨b₀, hb₀, -, hg⟩ := hf x y' hxy' (b ++ r) z r hm
    obtain rfl := List.append_cancel_right hb₀
    obtain ⟨w, hw, hzw⟩ := hg b' r' hb'
    refine ⟨w, ?_, hzw⟩
    rw [List.append_assoc]
    exact bind_eq_some.mpr ⟨y', b' ++ r', hy', hw⟩

/-- A result that is changed afterwards. -/
theorem Closed.bind_pure {close : Char} {p : Parser α} {q : Parser β} {f : α → γ} {g : β → δ}
    (hp : Closed close R p q) (hf : ∀ x y, R x y → S (f x) (g y)) :
    Closed close S (p >>= fun x => Pure.pure (f x)) (q >>= fun y => Pure.pure (g y)) := by
  intro input z r hz
  obtain ⟨x, m, hx, hm⟩ := bind_eq_some.mp hz
  obtain ⟨rfl, rfl⟩ := Prod.mk.inj (Option.some.inj hm)
  obtain ⟨used, rfl, hts, hq⟩ := hp input x m hx
  refine ⟨used, rfl, hts, ?_⟩
  intro used' r' hused
  obtain ⟨y, hy, hxy⟩ := hq used' r' hused
  exact ⟨g y, bind_eq_some.mpr ⟨y, r', hy, rfl⟩, hf x y hxy⟩

theorem Alike.map {p : Parser α} {q : Parser β} {f : α → γ} {g : β → δ} (hp : Alike e R p q)
    (hf : ∀ x y, R x y → S (f x) (g y)) : Alike e S (f <$> p) (g <$> q) := by
  have h := hp.bind (f := fun x => Pure.pure (f x)) (g := fun y => Pure.pure (g y))
    fun x y hxy => Alike.pure (hf x y hxy)
  rw [Bool.or_false] at h
  exact h

theorem Alike.ite {p p' : Parser α} {q q' : Parser β} {c : Prop} [Decidable c]
    (h : Alike e R p q) (h' : Alike e R p' q') :
    Alike e R (if c then p else p') (if c then q else q') := by
  split
  · exact h
  · exact h'

/-! ### Single tokens -/

theorem alike_peek : Alike false Eq peek peek := by
  intro input x r hx
  obtain ⟨rfl, rfl⟩ := Prod.mk.inj (Option.some.inj hx)
  refine ⟨[], rfl, nofun, ?_⟩
  intro used' r' hused hr
  rw [List.map_eq_nil_iff.mp hused]
  rw [List.head?_map, List.head?_map] at hr
  exact ⟨_, rfl, hr.symm⟩

theorem alike_take (f : Token → Option α) : Alike true Eq (take f) (take f) := by
  intro input x r hx
  cases input with
  | nil => contradiction
  | cons t rest =>
    obtain ⟨x', hf, hz⟩ := Option.map_eq_some_iff.mp hx
    obtain ⟨rfl, rfl⟩ := Prod.mk.inj hz
    refine ⟨[t], rfl, by simp, ?_⟩
    intro used' r' hused _
    obtain ⟨t', rest', rfl, ht', hrest'⟩ := List.map_eq_cons_iff.mp hused
    rw [List.map_eq_nil_iff.mp hrest']
    refine ⟨x', ?_, rfl⟩
    simp only [List.cons_append, List.nil_append, take, ht', hf, Option.map_some]

theorem alike_position : Alike false (fun _ _ => True) position position := by
  intro input x r hx
  obtain ⟨t, ht, hz⟩ := Option.map_eq_some_iff.mp hx
  obtain ⟨rfl, rfl⟩ := Prod.mk.inj hz
  refine ⟨[], rfl, nofun, ?_⟩
  intro used' r' hused hr
  rw [List.map_eq_nil_iff.mp hused]
  rw [List.head?_map, List.head?_map, ht] at hr
  obtain ⟨t', ht', -⟩ := Option.map_eq_some_iff.mp hr
  exact ⟨t'.position, by simp [position, ht'], trivial⟩

theorem alike_punctuator (c : Char) : Alike true Eq (punctuator c) (punctuator c) := alike_take _

theorem alike_keyword (word : String) : Alike true Eq (keyword word) (keyword word) := alike_take _

theorem alike_name : Alike true Eq name name := alike_take _

theorem alike_sees (t : Token) : Alike false Eq (sees t) (sees t) := by
  apply alike_peek.bind_rest
  rintro x _ rfl
  exact Alike.pure rfl

theorem alike_seesPunctuator (c : Char) :
    Alike false Eq (seesPunctuator c) (seesPunctuator c) := alike_sees _

theorem closed_punctuator (c : Char) : Closed c Eq (punctuator c) (punctuator c) := by
  intro input x r hx
  cases input with
  | nil => contradiction
  | cons t rest =>
    obtain ⟨x', hf, hz⟩ := Option.map_eq_some_iff.mp hx
    obtain ⟨rfl, rfl⟩ := Prod.mk.inj hz
    have ht : t.token = .punctuator c := by
      dsimp only at hf
      split at hf
      · assumption
      · contradiction
    refine ⟨[t], rfl, ⟨[], by simp [ht]⟩, ?_⟩
    intro used' r' hused
    obtain ⟨t', rest', rfl, ht', hrest'⟩ := List.map_eq_cons_iff.mp hused
    rw [List.map_eq_nil_iff.mp hrest']
    exact ⟨(), by simp [punctuator, take, ht', ht], rfl⟩

theorem Alike.whenSeen {p : Parser α} {q : Parser β} (h : Alike e R p q) (t : Token) :
    Alike false (Option.Rel R) (whenSeen t p) (whenSeen t q) := by
  apply (alike_sees t).bind_rest
  rintro b _ rfl
  apply Alike.ite
  · exact (h.map fun _ _ hxy => .some hxy).weaken
  · exact Alike.pure .none

/-! ### Repetition -/

/-- A parser that takes a token leaves fewer of them. -/
theorem Alike.length_lt {p : Parser α} {q : Parser β} (h : Alike true R p q)
    {input r : List PlacedToken} {x : α} (hx : p input = some (x, r)) :
    r.length < input.length := by
  obtain ⟨used, rfl, hne, -⟩ := h input x r hx
  have := List.length_pos_iff.mpr (hne rfl)
  rw [List.length_append]
  omega

variable {item : Parser α} {T : α → α → Prop}

theorem itemsWithin_succ (close : Char) (item : Parser α) (n : Nat) :
    itemsWithin close item (n + 1) = seesPunctuator close >>= fun closes =>
      if closes then punctuator close >>= fun _ => Pure.pure []
      else item >>= fun x => itemsWithin close item n >>= fun xs => Pure.pure (x :: xs) := rfl

theorem closed_itemsWithin (hitem : Alike true T item item) (close : Char) (n : Nat) :
    Closed close (List.Forall₂ T) (itemsWithin close item n) (itemsWithin close item n) := by
  induction n with
  | zero =>
    intro input xs r h
    contradiction
  | succ n ih =>
    rw [itemsWithin_succ]
    apply (alike_seesPunctuator close).bind_closed
    rintro closes _ rfl
    cases closes with
    | true => exact (closed_punctuator close).bind_pure fun _ _ _ => .nil
    | false =>
      apply hitem.bind_closed
      intro x y hxy
      exact ih.bind_pure fun _ _ hxs => .cons hxy hxs

/-- A bound above the number of tokens makes no difference. -/
theorem itemsWithin_of_lt (hitem : Alike true T item item) {close : Char} {n m : Nat}
    {input r : List PlacedToken} {xs : List α}
    (h : itemsWithin close item n input = some (xs, r)) (hm : input.length < m) :
    itemsWithin close item m input = some (xs, r) := by
  induction n generalizing m input xs r with
  | zero => contradiction
  | succ n ih =>
    obtain ⟨m, rfl⟩ := Nat.exists_eq_add_of_lt (Nat.zero_lt_of_lt hm)
    rw [Nat.zero_add] at hm ⊢
    rw [itemsWithin_succ] at h ⊢
    obtain ⟨closes, input', hsees, h⟩ := bind_eq_some.mp h
    obtain rfl : input = input' := (Prod.mk.inj (Option.some.inj hsees)).2
    refine bind_eq_some.mpr ⟨closes, input, hsees, ?_⟩
    cases closes with
    | true => exact h
    | false =>
      obtain ⟨x, mid, hx, h⟩ := bind_eq_some.mp h
      obtain ⟨xs', r', hxs, h⟩ := bind_eq_some.mp h
      have hlt : mid.length < m := by
        have := hitem.length_lt hx
        omega
      have hxs' : itemsWithin close item m mid = some (xs', r') := ih hxs hlt
      exact bind_eq_some.mpr ⟨x, mid, hx, bind_eq_some.mpr ⟨xs', r', hxs', h⟩⟩

/-- Items up to a closing punctuator end with it. -/
theorem closed_itemsUntil (hitem : Alike true T item item) (close : Char) :
    Closed close (List.Forall₂ T) (itemsUntil close item) (itemsUntil close item) := by
  intro input xs r h
  obtain ⟨used, hused, hts, hq⟩ := closed_itemsWithin hitem close _ input xs r h
  refine ⟨used, hused, hts, ?_⟩
  intro used' r' hused'
  obtain ⟨ys, hys, hxy⟩ := hq used' r' hused'
  exact ⟨ys, itemsWithin_of_lt hitem hys (Nat.lt_succ_self _), hxy⟩

theorem closed_someUntil (hitem : Alike true T item item) (close : Char) :
    Closed close (List.Forall₂ T) (someUntil close item) (someUntil close item) := by
  apply (alike_seesPunctuator close).bind_closed
  rintro closes _ rfl
  cases closes with
  | true =>
    intro input xs r h
    contradiction
  | false => exact closed_itemsUntil hitem close

theorem closed_bracketed {items : Nat → Parser α} (hitem : ∀ room, Alike true T (items room) (items room))
    (opening closing : Char) (room : Nat) :
    Closed closing (List.Forall₂ T) (bracketed opening closing items room)
      (bracketed opening closing items room) := by
  cases room with
  | zero =>
    intro input xs r h
    contradiction
  | succ room =>
    apply (alike_punctuator opening).bind_closed
    intro _ _ _
    exact closed_someUntil (hitem room) closing

theorem alike_optionalBracketed {items : Nat → Parser α}
    (hitem : ∀ room, Alike true T (items room) (items room)) (opening closing : Char) (room : Nat) :
    Alike false (List.Forall₂ T) (optionalBracketed opening closing items room)
      (optionalBracketed opening closing items room) := by
  apply (alike_seesPunctuator opening).bind_rest
  rintro opens _ rfl
  apply Alike.ite
  · exact (closed_bracketed hitem opening closing room).alike.weaken
  · exact Alike.pure .nil

theorem itemsWhileWithin_succ (starts : Token → Bool) (item : Parser α) (n : Nat) :
    itemsWhileWithin starts item (n + 1) = peek >>= fun next =>
      if next.any starts then
        item >>= fun x => itemsWhileWithin starts item n >>= fun xs => Pure.pure (x :: xs)
      else Pure.pure [] := rfl

theorem alike_itemsWhileWithin (hitem : Alike true T item item) (starts : Token → Bool) (n : Nat) :
    Alike false (List.Forall₂ T) (itemsWhileWithin starts item n)
      (itemsWhileWithin starts item n) := by
  induction n with
  | zero =>
    intro input xs r h
    contradiction
  | succ n ih =>
    rw [itemsWhileWithin_succ]
    apply alike_peek.bind_rest
    rintro next _ rfl
    apply Alike.ite
    · apply Alike.weaken
      apply hitem.bind
      intro x y hxy
      apply ih.bind
      intro xs ys hxs
      exact Alike.pure (.cons hxy hxs)
    · exact Alike.pure .nil

/-- A bound above the number of tokens makes no difference. -/
theorem itemsWhileWithin_of_lt (hitem : Alike true T item item) {starts : Token → Bool} {n m : Nat}
    {input r : List PlacedToken} {xs : List α}
    (h : itemsWhileWithin starts item n input = some (xs, r)) (hm : input.length < m) :
    itemsWhileWithin starts item m input = some (xs, r) := by
  induction n generalizing m input xs r with
  | zero => contradiction
  | succ n ih =>
    obtain ⟨m, rfl⟩ := Nat.exists_eq_add_of_lt (Nat.zero_lt_of_lt hm)
    rw [Nat.zero_add] at hm ⊢
    rw [itemsWhileWithin_succ] at h ⊢
    obtain ⟨next, input', hpeek, h⟩ := bind_eq_some.mp h
    obtain rfl : input = input' := (Prod.mk.inj (Option.some.inj hpeek)).2
    refine bind_eq_some.mpr ⟨next, input, hpeek, ?_⟩
    by_cases hstarts : next.any starts = true
    · rw [if_pos hstarts] at h ⊢
      obtain ⟨x, mid, hx, h⟩ := bind_eq_some.mp h
      obtain ⟨xs', r', hxs, h⟩ := bind_eq_some.mp h
      have hlt : mid.length < m := by
        have := hitem.length_lt hx
        omega
      have hxs' : itemsWhileWithin starts item m mid = some (xs', r') := ih hxs hlt
      exact bind_eq_some.mpr ⟨x, mid, hx, bind_eq_some.mpr ⟨xs', r', hxs', h⟩⟩
    · rw [if_neg hstarts] at h ⊢
      exact h

/-- Items are read for as long as the next token starts one, wherever they stand. -/
theorem alike_itemsWhile (hitem : Alike true T item item) (starts : Token → Bool) :
    Alike false (List.Forall₂ T) (itemsWhile starts item) (itemsWhile starts item) := by
  intro input xs r h
  obtain ⟨used, hused, heats, hq⟩ := alike_itemsWhileWithin hitem starts _ input xs r h
  refine ⟨used, hused, heats, ?_⟩
  intro used' r' hused' hr'
  obtain ⟨ys, hys, hxy⟩ := hq used' r' hused' hr'
  exact ⟨ys, itemsWhileWithin_of_lt hitem hys (Nat.lt_succ_self _), hxy⟩

end QueryBindings.Parser
