import Mathlib.Data.List.Perm.Basic
/-!
Computations that can fail, with or without a reason.

A list of computations succeeds if each of them does. Its results are then paired with its members.
-/
namespace QueryBindings

@[simp] theorem Except.toOption_ok {ε α : Type} (a : α) :
    (Except.ok a : Except ε α).toOption = some a := rfl

@[simp] theorem Except.toOption_error {ε α : Type} (e : ε) :
    (Except.error e : Except ε α).toOption = none := rfl

@[simp] theorem Except.toOption_map {ε α β : Type} (x : Except ε α) (f : α → β) :
    (x.map f).toOption = x.toOption.map f := by
  cases x <;> rfl

theorem Except.toOption_bind {ε α β : Type} (x : Except ε α) (f : α → Except ε β) :
    (x >>= f).toOption = x.toOption.bind fun a => (f a).toOption := by
  cases x <;> rfl

theorem Except.toOption_eq_some {ε α : Type} {x : Except ε α} {a : α} :
    x.toOption = some a ↔ x = .ok a := by
  cases x <;> simp

theorem Except.bind_eq_ok {ε α β : Type} {x : Except ε α} {f : α → Except ε β} {b : β} :
    (x >>= f) = .ok b ↔ ∃ a, x = .ok a ∧ f a = .ok b := by
  cases x <;> simp [bind, Except.bind]

theorem Except.map_eq_ok {ε α β : Type} {x : Except ε α} {f : α → β} {b : β}
    (h : x.map f = .ok b) : ∃ a, x = .ok a ∧ b = f a := by
  cases x with
  | error e => simp [Except.map] at h
  | ok a => exact ⟨a, rfl, (Except.ok.inj h).symm⟩

theorem Except.pure_eq_ok {ε α : Type} {a b : α} :
    (pure a : Except ε α) = .ok b ↔ a = b := by simp [pure, Except.pure]

theorem Except.exists_error_iff {ε α : Type} {x : Except ε α} :
    (∃ e, x = .error e) ↔ ¬ ∃ a, x = .ok a := by
  cases x <;> simp

/-! ### Lists in pairs -/

namespace List.Forall₂

variable {α β : Type} {r : α → β → Prop} {l : List α} {m : List β}

theorem exists_right (h : List.Forall₂ r l m) {a : α} (ha : a ∈ l) : ∃ b ∈ m, r a b := by
  induction h with
  | nil => simp at ha
  | cons hr _ ih =>
    rcases List.mem_cons.mp ha with rfl | ha
    · exact ⟨_, by simp, hr⟩
    · obtain ⟨b, hb, hab⟩ := ih ha
      exact ⟨b, List.mem_cons_of_mem _ hb, hab⟩

theorem exists_left (h : List.Forall₂ r l m) {b : β} (hb : b ∈ m) : ∃ a ∈ l, r a b :=
  exists_right h.flip hb

theorem imp_of_mem {r' : α → β → Prop} (h : List.Forall₂ r l m)
    (hr : ∀ a ∈ l, ∀ b ∈ m, r a b → r' a b) : List.Forall₂ r' l m := by
  induction h with
  | nil => exact .nil
  | cons hab _ ih =>
    refine .cons (hr _ List.mem_cons_self _ List.mem_cons_self hab) (ih fun a ha b hb => ?_)
    exact hr a (List.mem_cons_of_mem _ ha) b (List.mem_cons_of_mem _ hb)

/-- Members that are paired by way of a third list. -/
theorem comp {γ : Type} {r' : β → γ → Prop} {n : List γ} (h : List.Forall₂ r l m)
    (h' : List.Forall₂ r' m n) : List.Forall₂ (fun a c => a ∈ l ∧ ∃ b, r a b ∧ r' b c) l n := by
  rw [List.forall₂_and_left]
  refine ⟨fun a ha => ha, ?_⟩
  induction h generalizing n with
  | nil =>
    cases h'
    exact .nil
  | cons hr _ ih =>
    cases h' with
    | cons hr' h' => exact .cons ⟨_, hr, hr'⟩ (ih h')

/-- Two pairings that share a list, without that list. -/
theorem exists_comp_iff {γ : Type} {r' : β → γ → Prop} {n : List γ} :
    (∃ m, List.Forall₂ r l m ∧ List.Forall₂ r' m n) ↔
      List.Forall₂ (fun a c => ∃ b, r a b ∧ r' b c) l n := by
  constructor
  · rintro ⟨m, h, h'⟩
    exact (comp h h').imp fun _ _ hac => hac.2
  · intro h
    induction h with
    | nil => exact ⟨[], .nil, .nil⟩
    | cons hac _ ih =>
      obtain ⟨b, hr, hr'⟩ := hac
      obtain ⟨m, h, h'⟩ := ih
      exact ⟨b :: m, .cons hr h, .cons hr' h'⟩

/-- Members that are paired with the values of a function. -/
theorem eq_map {f : α → β} (h : List.Forall₂ r l m) (hf : ∀ a ∈ l, ∀ b, r a b → b = f a) :
    m = l.map f := by
  induction h with
  | nil => rfl
  | cons hr _ ih =>
    rw [List.map_cons, hf _ (List.mem_cons_self ..) _ hr,
      ih fun a ha => hf a (List.mem_cons_of_mem _ ha)]

/-- Members that are paired can be paired in another order. -/
theorem exists_of_perm {l' : List α} (h : List.Forall₂ r l m) (hp : l.Perm l') :
    ∃ m', List.Forall₂ r l' m' ∧ m'.Perm m := by
  have hcomp : Relation.Comp List.Perm (List.Forall₂ r) l' m := ⟨l, hp.symm, h⟩
  rwa [← List.forall₂_comp_perm_eq_perm_comp_forall₂] at hcomp

end List.Forall₂

/-! ### Lists of computations -/

/-- A list is mapped to the results for its members. -/
theorem Option.mapM_eq_some {α β : Type} {f : α → Option β} {l : List α} {out : List β} :
    l.mapM f = some out ↔ List.Forall₂ (fun a b => f a = some b) l out := by
  induction l generalizing out with
  | nil =>
    rw [List.mapM_nil, Option.pure_def, Option.some.injEq, List.forall₂_nil_left_iff]
    exact eq_comm
  | cons a l ih =>
    simp only [List.mapM_cons, Option.bind_eq_bind, Option.bind_eq_some_iff, Option.pure_def,
      Option.some.injEq, List.forall₂_cons_left_iff]
    constructor
    · rintro ⟨b, hb, bs, hbs, rfl⟩
      exact ⟨b, bs, hb, ih.mp hbs, rfl⟩
    · rintro ⟨b, bs, hb, hbs, rfl⟩
      exact ⟨b, hb, bs, ih.mpr hbs, rfl⟩

/-- A list is mapped to the results for its members. -/
theorem Except.mapM_eq_ok {ε α β : Type} {f : α → Except ε β} {l : List α} {out : List β} :
    l.mapM f = .ok out ↔ List.Forall₂ (fun a b => f a = .ok b) l out := by
  induction l generalizing out with
  | nil =>
    rw [List.mapM_nil, Except.pure_eq_ok, List.forall₂_nil_left_iff]
    exact eq_comm
  | cons a l ih =>
    rw [List.mapM_cons, Except.bind_eq_ok, List.forall₂_cons_left_iff]
    constructor
    · rintro ⟨b, hb, h⟩
      obtain ⟨bs, hbs, hout⟩ := Except.bind_eq_ok.mp h
      exact ⟨b, bs, hb, ih.mp hbs, (Except.pure_eq_ok.mp hout).symm⟩
    · rintro ⟨b, bs, hb, hbs, rfl⟩
      exact ⟨b, hb, Except.bind_eq_ok.mpr ⟨bs, ih.mpr hbs, rfl⟩⟩

/-- A list is mapped if and only if each of its members is. -/
theorem Except.exists_mapM_iff {ε α β : Type} {f : α → Except ε β} {l : List α} :
    (∃ out, l.mapM f = .ok out) ↔ ∀ a ∈ l, ∃ b, f a = .ok b := by
  induction l with
  | nil => exact ⟨by simp, fun _ => ⟨[], rfl⟩⟩
  | cons a l ih =>
    rw [List.forall_mem_cons, ← ih]
    simp only [Except.mapM_eq_ok, List.forall₂_cons_left_iff]
    constructor
    · rintro ⟨-, b, bs, hb, hbs, rfl⟩
      exact ⟨⟨b, hb⟩, bs, hbs⟩
    · rintro ⟨⟨b, hb⟩, bs, hbs⟩
      exact ⟨b :: bs, b, bs, hb, hbs, rfl⟩

/-- Mapping a list fails if and only if it fails for some member. -/
theorem Except.exists_mapM_error_iff {ε α β : Type} {f : α → Except ε β} {l : List α} :
    (∃ e, l.mapM f = .error e) ↔ ∃ a ∈ l, ∃ e, f a = .error e := by
  simp only [Except.exists_error_iff, Except.exists_mapM_iff, not_forall, exists_prop]

/-- The result for a member is among the results. -/
theorem Except.mem_of_mapM_eq_ok {ε α β : Type} {f : α → Except ε β} {l : List α} {m : List β}
    (h : l.mapM f = .ok m) {a : α} (ha : a ∈ l) {b : β} (hb : f a = .ok b) : b ∈ m := by
  obtain ⟨b', hm, hb'⟩ := List.Forall₂.exists_right (Except.mapM_eq_ok.mp h) ha
  obtain rfl := Except.ok.inj (hb.symm.trans hb')
  exact hm

/-- Members that are mapped one by one are mapped by one function. -/
theorem Except.exists_map_of_mapM {ε α β : Type} [Nonempty β] {f : α → Except ε β} {l : List α}
    {out : List β} (h : l.mapM f = .ok out) :
    ∃ g : α → β, (∀ a ∈ l, f a = .ok (g a)) ∧ out = l.map g := by
  obtain ⟨default⟩ := ‹Nonempty β›
  have hg : ∀ {a : α} {b : β}, f a = .ok b → (f a).toOption.getD default = b := by
    intro a b ha
    simp [ha]
  refine ⟨fun a => (f a).toOption.getD default, ?_, ?_⟩
  · intro a ha
    obtain ⟨b, hb⟩ := Except.exists_mapM_iff.mp ⟨out, h⟩ a ha
    exact hb.trans (congrArg Except.ok (hg hb).symm)
  · exact List.Forall₂.eq_map (Except.mapM_eq_ok.mp h) fun a _ b hb => (hg hb).symm

/-- Results for the same members are the same if they are for every member. -/
theorem Except.eq_of_mapM {ε α β : Type} {f f' : α → Except ε β} {l : List α} {out out' : List β}
    (h : l.mapM f = .ok out) (h' : l.mapM f' = .ok out')
    (heq : ∀ a b b', b ∈ out → f a = .ok b → f' a = .ok b' → b' = b) : out' = out := by
  rw [Except.mapM_eq_ok] at h h'
  induction h generalizing out' with
  | nil => exact List.forall₂_nil_left_iff.mp h'
  | cons ha _ ih =>
    obtain ⟨b', rest', hb', hrest', rfl⟩ := List.forall₂_cons_left_iff.mp h'
    obtain rfl := heq _ _ _ (List.mem_cons_self ..) ha hb'
    rw [ih hrest' fun a b b' hb => heq a b b' (List.mem_cons_of_mem _ hb)]

/-- Results for members that are listed first stand first. -/
theorem Except.exists_of_mapM_append {ε α β : Type} {f : α → Except ε β} {l l' : List α}
    {out : List β} (h : (l ++ l').mapM f = .ok out) :
    ∃ front back, l.mapM f = .ok front ∧ l'.mapM f = .ok back ∧ out = front ++ back := by
  rw [List.mapM_append] at h
  obtain ⟨front, hfront, h⟩ := Except.bind_eq_ok.mp h
  obtain ⟨back, hback, h⟩ := Except.bind_eq_ok.mp h
  exact ⟨front, back, hfront, hback, (Except.pure_eq_ok.mp h).symm⟩

/-- The last turn of a loop that can fail. -/
theorem Except.foldlM_concat_eq_ok {ε σ α : Type} {f : σ → α → Except ε σ} {l : List α} {a : α}
    {s t : σ} : (l ++ [a]).foldlM f s = .ok t ↔ ∃ u, l.foldlM f s = .ok u ∧ f u a = .ok t := by
  rw [List.foldlM_append, Except.bind_eq_ok]
  simp only [List.foldlM_cons, List.foldlM_nil, bind_pure]

/-- A loop that can fail, seen by way of another loop over what its states and its members are. -/
theorem Except.toOption_foldlM {ε σ σ' α α' : Type} {f : σ → α → Except ε σ}
    {f' : σ' → α' → Option σ'} {state : σ → σ'} {member : α → α'}
    (h : ∀ s a, (f s a).toOption.map state = f' (state s) (member a)) (l : List α) (s : σ) :
    (l.foldlM f s).toOption.map state = (l.map member).foldlM f' (state s) := by
  induction l generalizing s with
  | nil => rfl
  | cons a l ih =>
    rw [List.foldlM_cons, List.map_cons, List.foldlM_cons, Except.toOption_bind, ← h]
    cases f s a with
    | error e => rfl
    | ok s' => exact ih s'

end QueryBindings
