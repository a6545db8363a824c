import SchemaEvolution.Changelog.Plan

/-!
# Steps in turn

A walk is made of steps that are taken one after the other until one is refused. What is said here
of `forEach` is all that the theory of the walk needs: a list of steps may be cut anywhere, steps
within steps may be laid end to end, and what every step keeps is kept by all of them.
-/

namespace SchemaEvolution

/-! ## Results -/

theorem Except.bind_ok {ε α β : Type} {x : Except ε α} {f : α → Except ε β} {b : β} :
    x >>= f = .ok b ↔ ∃ a, x = .ok a ∧ f a = .ok b := by
  cases x <;> simp [bind, Except.bind]

theorem Except.map_ok {ε α β : Type} {x : Except ε α} {f : α → β} {b : β} :
    x.map f = .ok b ↔ ∃ a, x = .ok a ∧ f a = b := by
  cases x <;> simp [Except.map]

theorem Except.pure_ok {ε α : Type} {a b : α} :
    (pure a : Except ε α) = .ok b ↔ a = b := by
  simp [pure, Except.pure]

/-! A list of results succeeds when each of them does. -/

theorem Except.mapM_cons_ok {ε α β : Type} {f : α → Except ε β} {a : α} {as : List α}
    {bs : List β} :
    (a :: as).mapM f = .ok bs ↔ ∃ b rest, f a = .ok b ∧ as.mapM f = .ok rest ∧ bs = b :: rest := by
  simp only [List.mapM_cons, Except.bind_ok, Except.pure_ok]
  constructor
  · rintro ⟨b, hb, rest, hrest, rfl⟩
    exact ⟨b, rest, hb, hrest, rfl⟩
  · rintro ⟨b, rest, hb, hrest, rfl⟩
    exact ⟨b, hb, rest, hrest, rfl⟩

theorem Except.mapM_append_ok {ε α β : Type} {f : α → Except ε β} {as as' : List α}
    {bs : List β} :
    (as ++ as').mapM f = .ok bs ↔
      ∃ front back, as.mapM f = .ok front ∧ as'.mapM f = .ok back ∧ bs = front ++ back := by
  simp only [List.mapM_append, Except.bind_ok, Except.pure_ok]
  constructor
  · rintro ⟨front, hfront, back, hback, rfl⟩
    exact ⟨front, back, hfront, hback, rfl⟩
  · rintro ⟨front, back, hfront, hback, rfl⟩
    exact ⟨front, hfront, back, hback, rfl⟩

theorem Except.mem_of_mapM_ok {ε α β : Type} {f : α → Except ε β} {as : List α} {bs : List β}
    (h : as.mapM f = .ok bs) {b : β} : b ∈ bs ↔ ∃ a ∈ as, f a = .ok b := by
  induction as generalizing bs with
  | nil =>
    obtain rfl := Except.pure_ok.mp h
    simp
  | cons a as ih =>
    obtain ⟨b', rest, hb', hrest, rfl⟩ := Except.mapM_cons_ok.mp h
    rw [List.mem_cons, ih hrest]
    constructor
    · rintro (rfl | ⟨x, hx, hb⟩)
      · exact ⟨a, List.mem_cons_self, hb'⟩
      · exact ⟨x, List.mem_cons_of_mem _ hx, hb⟩
    · rintro ⟨x, hx, hb⟩
      rcases List.mem_cons.mp hx with rfl | hx
      · exact Or.inl (Except.ok.inj (hb.symm.trans hb'))
      · exact Or.inr ⟨x, hx, hb⟩

theorem Except.exists_of_mapM_ok {ε α β : Type} {f : α → Except ε β} {as : List α} {bs : List β}
    (h : as.mapM f = .ok bs) {a : α} (ha : a ∈ as) : ∃ b, f a = .ok b := by
  induction as generalizing bs with
  | nil => cases ha
  | cons a' as ih =>
    obtain ⟨b, rest, hb, hrest, -⟩ := Except.mapM_cons_ok.mp h
    rcases List.mem_cons.mp ha with rfl | ha
    · exact ⟨b, hb⟩
    · exact ih hrest ha

theorem Except.exists_mapM {ε α β : Type} {f : α → Except ε β} {as : List α}
    (h : ∀ a ∈ as, ∃ b, f a = .ok b) : ∃ bs, as.mapM f = .ok bs := by
  induction as with
  | nil => exact ⟨[], rfl⟩
  | cons a as ih =>
    rw [List.forall_mem_cons] at h
    obtain ⟨b, hb⟩ := h.1
    obtain ⟨bs, hbs⟩ := ih h.2
    exact ⟨b :: bs, Except.mapM_cons_ok.mpr ⟨b, bs, hb, hbs, rfl⟩⟩

theorem Except.mapM_ok_eq_nil {ε α β : Type} {f : α → Except ε β} {as : List α} {bs : List β}
    (h : as.mapM f = .ok bs) : bs = [] ↔ as = [] := by
  cases as with
  | nil =>
    obtain rfl := Except.pure_ok.mp h
    simp
  | cons a as =>
    obtain ⟨b, rest, -, -, rfl⟩ := Except.mapM_cons_ok.mp h
    simp

theorem Except.mapM_ok_eq_map {ε α β : Type} {f : α → Except ε β} {g : α → β} {as : List α}
    {bs : List β} (hg : ∀ a ∈ as, ∀ b, f a = .ok b → b = g a) (h : as.mapM f = .ok bs) :
    bs = as.map g := by
  induction as generalizing bs with
  | nil => exact (Except.pure_ok.mp h).symm
  | cons a as ih =>
    obtain ⟨b, rest, hb, hrest, rfl⟩ := Except.mapM_cons_ok.mp h
    rw [List.forall_mem_cons] at hg
    rw [List.map_cons, hg.1 b hb, ih hg.2 hrest]

theorem Except.exists_of_isOk {ε α : Type} {x : Except ε α} (h : x.isOk = true) :
    ∃ a, x = .ok a := by
  cases x with
  | error e => cases h
  | ok a => exact ⟨a, rfl⟩

namespace LiveSchema

variable {α β : Type} {f g : LiveSchema → α → Outcome} {s s' : LiveSchema}
  {operations : List Operation}

/-! ## Cutting and joining -/

theorem forEach_nil : forEach f s [] = .ok (s, []) := rfl

theorem forEach_cons {a : α} {as : List α} :
    forEach f s (a :: as) = do
      let (s, operations) ← f s a
      let (s, rest) ← forEach f s as
      return (s, operations ++ rest) := rfl

theorem forEach_nil_ok : forEach f s [] = .ok (s', operations) ↔ s' = s ∧ operations = [] := by
  simp [forEach_nil, eq_comm]

theorem forEach_cons_ok {a : α} {as : List α} :
    forEach f s (a :: as) = .ok (s', operations) ↔
      ∃ s₁ first rest, f s a = .ok (s₁, first) ∧ forEach f s₁ as = .ok (s', rest) ∧
        operations = first ++ rest := by
  simp only [forEach_cons, Except.bind_ok, Except.pure_ok, Prod.mk.injEq, Prod.exists]
  constructor
  · rintro ⟨s₁, first, h₁, s₂, rest, h₂, rfl, rfl⟩
    exact ⟨s₁, first, rest, h₁, h₂, rfl⟩
  · rintro ⟨s₁, first, rest, h₁, h₂, rfl⟩
    exact ⟨s₁, first, h₁, s', rest, h₂, rfl, rfl⟩

theorem forEach_append_ok {as bs : List α} :
    forEach f s (as ++ bs) = .ok (s', operations) ↔
      ∃ s₁ first rest, forEach f s as = .ok (s₁, first) ∧ forEach f s₁ bs = .ok (s', rest) ∧
        operations = first ++ rest := by
  induction as generalizing s operations with
  | nil =>
    constructor
    · intro h
      exact ⟨s, [], operations, rfl, h, rfl⟩
    · rintro ⟨s₁, first, rest, h₁, h₂, rfl⟩
      obtain ⟨rfl, rfl⟩ := forEach_nil_ok.mp h₁
      exact h₂
  | cons a as ih =>
    rw [List.cons_append, forEach_cons_ok]
    constructor
    · rintro ⟨s₁, first, rest, h₁, h₂, rfl⟩
      obtain ⟨s₂, middle, last, h₃, h₄, rfl⟩ := ih.mp h₂
      exact ⟨s₂, first ++ middle, last, forEach_cons_ok.mpr ⟨s₁, first, middle, h₁, h₃, rfl⟩, h₄,
        by rw [List.append_assoc]⟩
    · rintro ⟨s₂, front, last, h, h₄, rfl⟩
      obtain ⟨s₁, first, middle, h₁, h₃, rfl⟩ := forEach_cons_ok.mp h
      exact ⟨s₁, first, middle ++ last, h₁, ih.mpr ⟨s₂, middle, last, h₃, h₄, rfl⟩,
        by rw [List.append_assoc]⟩

/-- Steps within steps, laid end to end. -/
theorem forEach_flatMap {h : LiveSchema → β → Outcome} {k : α → List β} {as : List α} :
    forEach (fun s a => forEach h s (k a)) s as = .ok (s', operations) ↔
      forEach h s (as.flatMap k) = .ok (s', operations) := by
  induction as generalizing s operations with
  | nil => rfl
  | cons a as ih =>
    rw [List.flatMap_cons, forEach_append_ok, forEach_cons_ok]
    simp only [ih]

theorem forEach_map {k : β → α} {bs : List β} :
    forEach f s (bs.map k) = forEach (fun s b => f s (k b)) s bs := by
  induction bs generalizing s with
  | nil => rfl
  | cons b bs ih => simp only [List.map_cons, forEach_cons, ih]

/-! ## What is kept -/

/-- What every step keeps is kept by all of them. -/
theorem forEach_invariant {P : LiveSchema → Prop} {as : List α}
    (hstep : ∀ s a s' operations, a ∈ as → P s → f s a = .ok (s', operations) → P s')
    (hs : P s) (h : forEach f s as = .ok (s', operations)) : P s' := by
  induction as generalizing s operations with
  | nil =>
    obtain ⟨rfl, rfl⟩ := forEach_nil_ok.mp h
    exact hs
  | cons a as ih =>
    obtain ⟨s₁, first, rest, h₁, h₂, rfl⟩ := forEach_cons_ok.mp h
    exact ih (fun s a s' operations ha => hstep s a s' operations (List.mem_cons_of_mem _ ha))
      (hstep s a s₁ first List.mem_cons_self hs h₁) h₂

/-- Steps that are the same as long as something is kept are the same from the first to the last. -/
theorem forEach_eq {P : LiveSchema → Prop} {as : List α}
    (hstep : ∀ s a, a ∈ as → P s → g s a = f s a)
    (hkept : ∀ s a s' operations, a ∈ as → P s → f s a = .ok (s', operations) → P s')
    (hs : P s) : forEach g s as = forEach f s as := by
  induction as generalizing s with
  | nil => rfl
  | cons a as ih =>
    rw [forEach_cons, forEach_cons, hstep s a List.mem_cons_self hs]
    cases hfirst : f s a with
    | error fault => rfl
    | ok outcome =>
      have hrest : forEach g outcome.1 as = forEach f outcome.1 as :=
        ih (fun s a ha => hstep s a (List.mem_cons_of_mem _ ha))
          (fun s a s' operations ha => hkept s a s' operations (List.mem_cons_of_mem _ ha))
          (hkept s a outcome.1 outcome.2 List.mem_cons_self hs hfirst)
      exact congrArg (fun rest => rest >>= fun x => pure (x.1, outcome.2 ++ x.2)) hrest

/-- Steps that do nothing do nothing together. -/
theorem forEach_idle {as : List α} (h : ∀ a ∈ as, f s a = .ok (s, [])) :
    forEach f s as = .ok (s, []) := by
  induction as with
  | nil => rfl
  | cons a as ih =>
    exact forEach_cons_ok.mpr ⟨s, [], [], h a List.mem_cons_self,
      ih fun a ha => h a (List.mem_cons_of_mem _ ha), rfl⟩

/-- What every step guarantees of its operations holds of all of them. -/
theorem forEach_operations {Q : Operation → Prop} {as : List α}
    (hstep : ∀ s a s' operations, a ∈ as → f s a = .ok (s', operations) → ∀ o ∈ operations, Q o)
    (h : forEach f s as = .ok (s', operations)) : ∀ o ∈ operations, Q o := by
  induction as generalizing s operations with
  | nil =>
    obtain ⟨-, rfl⟩ := forEach_nil_ok.mp h
    simp
  | cons a as ih =>
    obtain ⟨s₁, first, rest, h₁, h₂, rfl⟩ := forEach_cons_ok.mp h
    intro o ho
    rcases List.mem_append.mp ho with ho | ho
    · exact hstep s a s₁ first List.mem_cons_self h₁ o ho
    · exact ih (fun s a s' operations ha => hstep s a s' operations (List.mem_cons_of_mem _ ha))
        h₂ o ho

/-- Where a walk stands on a timeline, before and after the first of the versions to come. -/
theorem split_cons {timeline passed versions later : List String} {version : String}
    (h : timeline = passed ++ version :: versions ++ later) :
    timeline = passed ++ version :: (versions ++ later) ∧
      timeline = (passed ++ [version]) ++ versions ++ later := by
  constructor
  · rw [h, List.append_assoc, List.cons_append]
  · rw [h, List.append_cons]

theorem walk_cons_ok {c : Setting} {version : String} {versions : List String} {w : Walk} :
    s.walk c (version :: versions) = .ok w ↔
      ∃ s₁ first w₁, s.advance c version = .ok (s₁, first) ∧ s₁.walk c versions = .ok w₁ ∧
        w = ⟨w₁.final, (version, s.enumUses) :: w₁.uses, first ++ w₁.operations⟩ := by
  simp only [walk, Except.bind_ok, Except.pure_ok, Prod.exists, @eq_comm _ _ w, exists_and_left]

/-- A walk along a timeline takes one step for each version. -/
theorem walk_ok {c : Setting} {versions : List String} {w : Walk} (h : s.walk c versions = .ok w) :
    forEach (advance c) s versions = .ok (w.final, w.operations) := by
  induction versions generalizing s w with
  | nil =>
    obtain rfl := Except.ok.inj h
    rfl
  | cons version versions ih =>
    obtain ⟨s₁, first, rest, h₁, h₂, rfl⟩ := walk_cons_ok.mp h
    exact forEach_cons_ok.mpr ⟨s₁, first, rest.operations, h₁, ih h₂, rfl⟩

end LiveSchema

end SchemaEvolution
