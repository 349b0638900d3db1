import QueryBindings.Search
/-!
What a search finds.

A search finds the names of the requests that it starts from and of all requests that follow from
them, and each name once. What carries the proof: whatever follows from a name that was found is
found as well, or is still among the requests of the next level. The search ends at a level that
finds nothing new, and such a level leaves no requests.
-/
namespace QueryBindings.Search

variable {ρ β γ ε : Type} {s : Search ρ β γ ε}

/-- A request follows from another one if the expansion of the other one asks for it. -/
def Follows (s : Search ρ β γ ε) (r r' : ρ) : Prop :=
  ∃ entry result next, s.table.lookup (s.name r) = some entry ∧
    s.expand r entry = .ok (result, next) ∧ r' ∈ next

inductive Reached (s : Search ρ β γ ε) (requests : List ρ) : ρ → Prop
  | start {r : ρ} (h : r ∈ requests) : Reached s requests r
  | step {r r' : ρ} (h : Reached s requests r) (h' : s.Follows r r') : Reached s requests r'

/-- The expansion of an entry depends on the name in the request alone, if it succeeds. -/
def ByName (s : Search ρ β γ ε) : Prop :=
  ∀ r r' entry result, s.name r = s.name r' → s.expand r entry = .ok result →
    s.expand r' entry = .ok result

def names (found : List (String × γ)) : List String := found.map (·.1)

@[simp] theorem names_nil : names ([] : List (String × γ)) = [] := rfl

@[simp] theorem names_append (a b : List (String × γ)) : names (a ++ b) = names a ++ names b := by
  simp [names]

@[simp] theorem names_singleton (name : String) (result : γ) :
    names [(name, result)] = [name] := rfl

theorem isFound_iff {found : List (String × γ)} {name : String} :
    isFound found name = true ↔ name ∈ names found := by
  simp [isFound, names]

theorem not_isFound_iff {found : List (String × γ)} {name : String} :
    isFound found name = false ↔ name ∉ names found := by
  rw [← isFound_iff, Bool.not_eq_true]

/-- Requests for one name lead on in the same way. -/
theorem Follows.of_name_eq (hs : s.ByName) {r₁ r₂ r' : ρ} (h : s.name r₁ = s.name r₂)
    (hf : s.Follows r₁ r') : s.Follows r₂ r' := by
  obtain ⟨entry, result, next, hl, he, hr⟩ := hf
  exact ⟨entry, result, next, h ▸ hl, hs r₁ r₂ entry _ h he, hr⟩

/-! ### One level -/

/-- The first request of a level is for a name that was found, or its entry is expanded. -/
theorem level_cons_eq_ok {found found' : List (String × γ)} {r : ρ} {rest next : List ρ}
    (h : s.level found (r :: rest) = .ok (found', next)) :
    (s.name r ∈ names found ∧ s.level found rest = .ok (found', next)) ∨
      (s.name r ∉ names found ∧ ∃ entry result first later,
        s.table.lookup (s.name r) = some entry ∧ s.expand r entry = .ok (result, first) ∧
        s.level (found ++ [(s.name r, result)]) rest = .ok (found', later) ∧
        next = first ++ later) := by
  unfold level at h
  split at h
  · rename_i hf
    exact Or.inl ⟨isFound_iff.mp hf, h⟩
  · rename_i hf
    refine Or.inr ⟨not_isFound_iff.mp (by simpa using hf), ?_⟩
    cases hl : s.table.lookup (s.name r) with
    | none => simp [hl] at h
    | some entry =>
      cases he : s.expand r entry with
      | error e => simp [hl, he, bind, Except.bind] at h
      | ok answer =>
        obtain ⟨result, first⟩ := answer
        cases hr : s.level (found ++ [(s.name r, result)]) rest with
        | error e => simp [hl, he, hr, bind, Except.bind] at h
        | ok answer =>
          obtain ⟨found', later⟩ := answer
          simp only [hl, he, hr, bind, Except.bind, pure, Except.pure, Except.ok.injEq,
            Prod.mk.injEq] at h
          obtain ⟨rfl, rfl⟩ := h
          exact ⟨entry, result, first, later, rfl, he, hr, rfl⟩

theorem level_nil (found : List (String × γ)) : s.level found [] = .ok (found, []) := by
  simp [level]

/-- A level finds the names of its requests. -/
theorem mem_names_level {requests : List ρ} {found found' : List (String × γ)} {next : List ρ}
    (h : s.level found requests = .ok (found', next)) (name : String) :
    name ∈ names found' ↔ name ∈ names found ∨ ∃ r ∈ requests, s.name r = name := by
  induction requests generalizing found next with
  | nil =>
    simp only [level_nil, Except.ok.injEq, Prod.mk.injEq] at h
    simp [h.1]
  | cons r rest ih =>
    rcases level_cons_eq_ok h with ⟨hr, hrest⟩ | ⟨-, entry, result, first, later, -, -, hrest, -⟩
    · rw [ih hrest]
      constructor
      · rintro (hn | ⟨r', hr', hn⟩)
        · exact Or.inl hn
        · exact Or.inr ⟨r', List.mem_cons_of_mem _ hr', hn⟩
      · rintro (hn | ⟨r', hr', hn⟩)
        · exact Or.inl hn
        · rcases List.mem_cons.mp hr' with rfl | hr'
          · exact Or.inl (hn ▸ hr)
          · exact Or.inr ⟨r', hr', hn⟩
    · rw [ih hrest]
      have hcons : (∃ x ∈ r :: rest, s.name x = name) ↔
          name = s.name r ∨ ∃ x ∈ rest, s.name x = name := by simp [eq_comm]
      rw [hcons, names_append, names_singleton, List.mem_append, List.mem_singleton, or_assoc]

/-- A level finds no name twice. -/
theorem nodup_names_level {requests : List ρ} {found found' : List (String × γ)} {next : List ρ}
    (h : s.level found requests = .ok (found', next)) (hf : (names found).Nodup) :
    (names found').Nodup := by
  induction requests generalizing found next with
  | nil =>
    simp only [level_nil, Except.ok.injEq, Prod.mk.injEq] at h
    exact h.1 ▸ hf
  | cons r rest ih =>
    rcases level_cons_eq_ok h with ⟨-, hrest⟩ | ⟨hr, entry, result, first, later, -, -, hrest, -⟩
    · exact ih hrest hf
    · apply ih hrest
      rw [names_append, names_singleton, List.nodup_append]
      refine ⟨hf, by simp, ?_⟩
      intro a ha b hb
      rw [List.mem_singleton.mp hb]
      exact ne_of_mem_of_not_mem ha hr

/-- The table holds what a level finds. -/
theorem lookup_of_level {requests : List ρ} {found found' : List (String × γ)} {next : List ρ}
    (h : s.level found requests = .ok (found', next)) {name : String} (hn : name ∈ names found')
    (hold : name ∉ names found) : ∃ entry, s.table.lookup name = some entry := by
  induction requests generalizing found next with
  | nil =>
    simp only [level_nil, Except.ok.injEq, Prod.mk.injEq] at h
    exact absurd (h.1 ▸ hn) hold
  | cons r rest ih =>
    rcases level_cons_eq_ok h with ⟨-, hrest⟩ | ⟨-, entry, result, first, later, hl, -, hrest, -⟩
    · exact ih hrest hold
    · by_cases he : name = s.name r
      · exact ⟨entry, he ▸ hl⟩
      · exact ih hrest (by simp [hold, he])

/-- The next level's requests follow from those of a level whose names are new. -/
theorem follows_of_mem_next {requests : List ρ} {found found' : List (String × γ)}
    {next : List ρ} (h : s.level found requests = .ok (found', next)) {r' : ρ} (hr : r' ∈ next) :
    ∃ r ∈ requests, s.name r ∉ names found ∧ s.Follows r r' := by
  induction requests generalizing found next with
  | nil =>
    simp only [level_nil, Except.ok.injEq, Prod.mk.injEq] at h
    rw [← h.2] at hr
    simp at hr
  | cons r rest ih =>
    rcases level_cons_eq_ok h with
      ⟨-, hrest⟩ | ⟨hnew, entry, result, first, later, hl, he, hrest, rfl⟩
    · obtain ⟨x, hx, hf⟩ := ih hrest hr
      exact ⟨x, List.mem_cons_of_mem _ hx, hf⟩
    · rcases List.mem_append.mp hr with hr | hr
      · exact ⟨r, by simp, hnew, entry, result, first, hl, he, hr⟩
      · obtain ⟨x, hx, hn, hf⟩ := ih hrest hr
        refine ⟨x, List.mem_cons_of_mem _ hx, fun hm => hn ?_, hf⟩
        rw [names_append]
        exact List.mem_append_left _ hm

/-- The next level has all requests that follow from the names that a level finds. -/
theorem mem_next_of_follows (hs : s.ByName) {requests : List ρ} {found found' : List (String × γ)}
    {next : List ρ} (h : s.level found requests = .ok (found', next)) {r r' : ρ}
    (hn : s.name r ∈ names found') (hold : s.name r ∉ names found) (hf : s.Follows r r') :
    r' ∈ next := by
  induction requests generalizing found next with
  | nil =>
    simp only [level_nil, Except.ok.injEq, Prod.mk.injEq] at h
    exact absurd (h.1 ▸ hn) hold
  | cons x rest ih =>
    rcases level_cons_eq_ok h with
      ⟨-, hrest⟩ | ⟨-, entry, result, first, later, hl, he, hrest, rfl⟩
    · exact ih hrest hold
    · by_cases hname : s.name r = s.name x
      · obtain ⟨entry', result', next', hl', he', hr'⟩ := hf.of_name_eq hs hname
        rw [hl, Option.some.injEq] at hl'
        rw [← hl', he, Except.ok.injEq, Prod.mk.injEq] at he'
        exact List.mem_append_left _ (he'.2 ▸ hr')
      · exact List.mem_append_right _ (ih hrest (by simp [hold, hname]))

/-! ### Level after level -/

/-- Finding a name that the table holds leaves fewer names to be found. -/
theorem remaining_lt {found found' : List (String × γ)} {name : String} {entry : β}
    (h : ∀ name ∈ names found, name ∈ names found') (hn : name ∈ names found')
    (hold : name ∉ names found) (hl : s.table.lookup name = some entry) :
    s.remaining found' < s.remaining found := by
  obtain ⟨before, after, htable, -⟩ := List.lookup_eq_some_iff.mp hl
  have hparts : ∀ l : List (String × β),
      l.countP (fun e => !isFound found' e.1) ≤ l.countP (fun e => !isFound found e.1) := by
    intro l
    apply List.countP_mono_left
    intro e _ he
    simp only [Bool.not_eq_true', not_isFound_iff] at he ⊢
    exact fun hm => he (h _ hm)
  have hbefore := hparts before
  have hafter := hparts after
  have hfound : isFound found' name = true := isFound_iff.mpr hn
  have hnotFound : isFound found name = false := not_isFound_iff.mpr hold
  simp only [remaining, htable, List.countP_append, List.countP_cons, hfound, hnotFound]
  simp only [Bool.not_true, Bool.not_false, Bool.false_eq_true, if_true, if_false]
  omega

/-- What holds between two levels of a search that started from `requests`. -/
structure Closing (s : Search ρ β γ ε) (start : List ρ) (found : List (String × γ))
    (requests : List ρ) : Prop where
  nodup : (names found).Nodup
  sound : ∀ name ∈ names found, ∃ r, s.Reached start r ∧ s.name r = name
  reached : ∀ r ∈ requests, s.Reached start r
  started : ∀ r ∈ start, s.name r ∈ names found ∨ r ∈ requests
  closed : ∀ r r', s.name r ∈ names found → s.Follows r r' →
    s.name r' ∈ names found ∨ r' ∈ requests

theorem closing_start (s : Search ρ β γ ε) (start : List ρ) : s.Closing start [] start where
  nodup := List.nodup_nil
  sound := by simp
  reached r hr := .start hr
  started r hr := Or.inr hr
  closed r r' hr := by simp at hr

/-- A level keeps the invariant. -/
theorem Closing.level (hs : s.ByName) {start requests next : List ρ}
    {found found' : List (String × γ)} (hc : s.Closing start found requests)
    (h : s.level found requests = .ok (found', next)) : s.Closing start found' next where
  nodup := nodup_names_level h hc.nodup
  sound name hn := by
    rcases (mem_names_level h name).mp hn with hn | ⟨r, hr, hn⟩
    · exact hc.sound name hn
    · exact ⟨r, hc.reached r hr, hn⟩
  reached r' hr' := by
    obtain ⟨r, hr, -, hf⟩ := follows_of_mem_next h hr'
    exact .step (hc.reached r hr) hf
  started r hr := by
    rcases hc.started r hr with hn | hr
    · exact Or.inl ((mem_names_level h _).mpr (Or.inl hn))
    · exact Or.inl ((mem_names_level h _).mpr (Or.inr ⟨r, hr, rfl⟩))
  closed r r' hr hf := by
    by_cases hold : s.name r ∈ names found
    · rcases hc.closed r r' hold hf with hn | hr'
      · exact Or.inl ((mem_names_level h _).mpr (Or.inl hn))
      · exact Or.inl ((mem_names_level h _).mpr (Or.inr ⟨r', hr', rfl⟩))
    · exact Or.inr (mem_next_of_follows hs h hr hold hf)

/-- A level that finds nothing new asks for nothing. -/
theorem next_eq_nil {requests next : List ρ} {found found' : List (String × γ)}
    (h : s.level found requests = .ok (found', next))
    (hr : ¬ s.remaining found' < s.remaining found) : next = [] := by
  apply List.eq_nil_iff_forall_not_mem.mpr
  intro r' hr'
  obtain ⟨r, hmem, hold, -⟩ := follows_of_mem_next h hr'
  have hn : s.name r ∈ names found' := (mem_names_level h _).mpr (Or.inr ⟨r, hmem, rfl⟩)
  obtain ⟨entry, hl⟩ := lookup_of_level h hn hold
  exact hr (remaining_lt (fun name hm => (mem_names_level h name).mpr (Or.inl hm)) hn hold hl)

/-- At the end of a search no request is left. -/
theorem Closing.close (hs : s.ByName) {start : List ρ} {found result : List (String × γ)}
    {requests : List ρ} (hc : s.Closing start found requests)
    (h : s.close found requests = .ok result) : s.Closing start result [] := by
  induction found, requests using close.induct (s := s) with
  | case1 found requests e he =>
    rw [Search.close, he] at h
    simp at h
  | case2 found requests found' next hl hlt ih =>
    rw [Search.close, hl] at h
    simp only [hlt, if_true] at h
    exact ih (hc.level hs hl) h
  | case3 found requests found' next hl hlt =>
    rw [Search.close, hl] at h
    simp only [hlt, if_false, Except.ok.injEq] at h
    subst h
    exact next_eq_nil hl hlt ▸ hc.level hs hl

/-- A search that succeeds finds every name that is reached from its requests, and each one once. -/
theorem run_eq_ok (hs : s.ByName) {start : List ρ} {found : List (String × γ)}
    (h : s.run start = .ok found) : (names found).Nodup ∧
      ∀ name, name ∈ names found ↔ ∃ r, s.Reached start r ∧ s.name r = name := by
  have hc : s.Closing start found [] := (closing_start s start).close hs h
  refine ⟨hc.nodup, fun name => ⟨hc.sound name, ?_⟩⟩
  rintro ⟨r, hr, rfl⟩
  induction hr with
  | start hr => exact (hc.started _ hr).resolve_right (by simp)
  | step _ hf ih => exact (hc.closed _ _ ih hf).resolve_right (by simp)

/-! ### Results -/

/-- A name's result is the result of the expansion of its entry. -/
def Answered (s : Search ρ β γ ε) (name : String) (result : γ) : Prop :=
  ∃ r entry next, s.name r = name ∧ s.table.lookup name = some entry ∧
    s.expand r entry = .ok (result, next)

/-- A level adds only what the table answers. -/
theorem answered_of_mem_level {requests : List ρ} {found found' : List (String × γ)}
    {next : List ρ} (h : s.level found requests = .ok (found', next))
    (hf : ∀ p ∈ found, s.Answered p.1 p.2) : ∀ p ∈ found', s.Answered p.1 p.2 := by
  induction requests generalizing found next with
  | nil =>
    simp only [level_nil, Except.ok.injEq, Prod.mk.injEq] at h
    exact h.1 ▸ hf
  | cons r rest ih =>
    rcases level_cons_eq_ok h with ⟨-, hrest⟩ | ⟨-, entry, result, first, later, hl, he, hrest, -⟩
    · exact ih hrest hf
    · apply ih hrest
      intro p hp
      rcases List.mem_append.mp hp with hp | hp
      · exact hf p hp
      · rw [List.mem_singleton.mp hp]
        exact ⟨r, entry, first, rfl, hl, he⟩

/-- A search finds only what the table answers. -/
theorem answered_of_mem_close {found result : List (String × γ)} {requests : List ρ}
    (h : s.close found requests = .ok result) (hf : ∀ p ∈ found, s.Answered p.1 p.2) :
    ∀ p ∈ result, s.Answered p.1 p.2 := by
  induction found, requests using close.induct (s := s) with
  | case1 found requests e he =>
    rw [Search.close, he] at h
    simp at h
  | case2 found requests found' next hl hlt ih =>
    rw [Search.close, hl] at h
    simp only [hlt, if_true] at h
    exact ih h (answered_of_mem_level hl hf)
  | case3 found requests found' next hl hlt =>
    rw [Search.close, hl] at h
    simp only [hlt, if_false, Except.ok.injEq] at h
    exact h ▸ answered_of_mem_level hl hf

/-- What a search finds for a name is what its entry is expanded to. -/
theorem answered_of_run {start : List ρ} {found : List (String × γ)}
    (h : s.run start = .ok found) : ∀ p ∈ found, s.Answered p.1 p.2 :=
  answered_of_mem_close h (by simp)

end QueryBindings.Search
