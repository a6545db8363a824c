import SchemaEvolution.Proofs.Documents.Places

/-!
# Steady decoders

What is made of scalars, lists, records and tagged objects does not depend on how they are arranged.
Of an arrangement of a record it is enough to know what `Rearranges.field?` says about a single
field; every reader of records that is put together from fields inherits it.
-/

namespace SchemaEvolution.Json

variable {α β : Type} {p q : Place} {v w : Json} {a : α}

/-! ## Scalars and lists -/

namespace Steady

theorem string : Steady p asString := by
  intro v w a h hv
  cases h <;> cases hv

theorem bool : Steady p asBool := by
  intro v w a h hv
  cases h <;> cases hv

theorem nat {bound : Nat} : Steady p (asNat bound) := by
  intro v w a h hv
  cases h <;> cases hv

theorem map {f : Json → Except ReadError α} {g : α → β} (hf : Steady p f) :
    Steady p fun v => (f v).map g := by
  intro v w b h hv
  obtain ⟨a, ha, rfl⟩ := Except.map_ok.mp hv
  exact Except.map_ok.mpr ⟨a, hf h ha, rfl⟩

theorem option {f : Json → Except ReadError α} (hf : Steady p f) : Steady p (asOption f) := by
  intro v w a h hv
  have hv' : (f v).map some = .ok a := by cases h <;> exact hv
  have hw : (f w).map some = .ok a := hf.map h hv'
  cases h <;> exact hw

theorem list {f : Json → Except ReadError α} (hf : Steady q f) : Steady (.list q) (asList f) := by
  intro v w as h hv
  cases h with
  | permute | insert | member | unreadable => cases hv
  | element helement =>
    obtain ⟨front, back, hfront, hback, rfl⟩ := Except.mapM_append_ok.mp hv
    obtain ⟨a, rest, ha, hrest, rfl⟩ := Except.mapM_cons_ok.mp hback
    exact Except.mapM_append_ok.mpr
      ⟨front, _, hfront, Except.mapM_cons_ok.mpr ⟨a, rest, hf helement ha, hrest, rfl⟩, rfl⟩

end Steady

/-! ## Fields -/

namespace Record

variable {r : Record} {name k : String} {m : Option Json} {f : Json → Except ReadError α}

theorem field?_ok :
    r.field? name = .ok m ↔ r.filter (·.1 == name) = m.toList.map (Prod.mk name) := by
  have hkey : ∀ x ∈ r.filter (·.1 == name), x.1 = name := fun x hx => by
    simpa using (List.mem_filter.mp hx).2
  rw [field?]
  generalize r.filter (·.1 == name) = found at hkey
  rcases found with _ | ⟨x, _ | ⟨y, rest⟩⟩
  · cases m <;> simp
  · obtain rfl := hkey x (by simp)
    cases m <;> simp [Prod.ext_iff, eq_comm]
  · cases m <;> simp

theorem required_ok :
    r.required name f = .ok a ↔ ∃ v, r.field? name = .ok (some v) ∧ f v = .ok a := by
  rw [required]
  rcases r.field? name with e | _ | v <;> simp

theorem withDefault_ok {default : α} :
    r.withDefault name default f = .ok a ↔
      r.field? name = .ok none ∧ default = a ∨ ∃ v, r.field? name = .ok (some v) ∧ f v = .ok a := by
  rw [withDefault]
  rcases r.field? name with e | _ | v <;> simp

/-- Other members do not matter to a field. -/
theorem field?_append_cons_of_ne {ms ms' : Record} (h : k ≠ name) :
    field? (ms ++ (k, v) :: ms') name = field? (ms ++ ms') name := by
  simp [field?, h]

/-- A field that occurs once is what a look-up finds. -/
theorem lookup_of_field? (h : r.field? name = .ok (some v)) : r.lookup name = some v := by
  obtain ⟨front, back, rfl, hfront, -, -⟩ := List.filter_eq_cons_iff.mp (field?_ok.mp h)
  refine List.lookup_eq_some_iff.mpr ⟨front, back, rfl, fun x hx => ?_⟩
  have hne : x.1 ≠ name := by simpa using hfront x hx
  simpa using hne.symm

end Record

/-- A field in an arrangement of a record is missing if it was missing before, and otherwise it is
there once, arranged or as it was. -/
theorem Rearranges.field? {fields : List (String × Place)} {r r' : Record} {name : String}
    {m : Option Json} (h : Rearranges (.record fields) (.object r) (.object r'))
    (hname : fields.lookup name = some q) (hm : r.field? name = .ok m) :
    ∃ m', r'.field? name = .ok m' ∧ Option.Rel (Relation.ReflGen (Rearranges q)) m m' := by
  have hrefl : Option.Rel (Relation.ReflGen (Rearranges q)) m m := by
    cases m with
    | none => exact .none
    | some v => exact .some .refl
  cases h with
  | permute hperm =>
    refine ⟨m, Record.field?_ok.mpr ?_, hrefl⟩
    have hfilter := hperm.filter (·.1 == name)
    rw [Record.field?_ok.mp hm] at hfilter
    cases m with
    | none => exact hfilter.symm.eq_nil
    | some v => exact hfilter.symm.eq_singleton
  | insert hfields hfield hnew hv =>
    obtain rfl := Option.some.inj hfields
    refine ⟨m, ?_, hrefl⟩
    obtain ⟨front, back, rfl, -⟩ := List.lookup_eq_some_iff.mp hname
    rwa [Record.field?_cons_of_ne fun he => hfield (by simp [he])]
  | member hmember =>
    rename_i ms ms' key v w
    by_cases hkey : key = name
    · subst hkey
      rw [Record.field?_ok, List.filter_append, List.filter_cons_of_pos (by simp)] at hm
      have hplace : (Place.record fields).member (.object (ms ++ (key, v) :: ms')) key = q := by
        simp [Place.member, Place.fields?, hname]
      rw [hplace] at hmember
      cases m with
      | none => simp at hm
      | some u =>
        obtain ⟨hms, hms'⟩ : ms.filter (·.1 == key) = [] ∧ ms'.filter (·.1 == key) = [] := by
          have hlength := congrArg List.length hm
          simp only [List.length_append, List.length_cons, List.length_map, Option.toList_some,
            List.length_nil] at hlength
          exact ⟨List.eq_nil_of_length_eq_zero (by omega),
            List.eq_nil_of_length_eq_zero (by omega)⟩
        obtain rfl : v = u := by simpa [hms, hms'] using hm
        refine ⟨some w, Record.field?_ok.mpr ?_, .some (.single hmember)⟩
        rw [List.filter_append, List.filter_cons_of_pos (by simp), hms, hms']
        rfl
    · refine ⟨m, ?_, hrefl⟩
      rw [Record.field?_append_cons_of_ne hkey] at hm ⊢
      exact hm

/-- What a steady decoder makes of a field, it makes of the field of every arrangement. -/
theorem Rearranges.steady_field {fields : List (String × Place)} {r r' : Record} {name : String}
    {f : Json → Except ReadError α} (h : Rearranges (.record fields) (.object r) (.object r'))
    (hname : fields.lookup name = some q) (hf : Steady q f) (hv : r.field? name = .ok (some v))
    (ha : f v = .ok a) : ∃ w, r'.field? name = .ok (some w) ∧ f w = .ok a := by
  obtain ⟨m', hm', hrel⟩ := h.field? hname hv
  cases hrel with
  | some hvw =>
    cases hvw with
    | refl => exact ⟨v, hm', ha⟩
    | single hvw => exact ⟨_, hm', hf hvw ha⟩

/-! ## Records -/

/-- A reader of records that makes the same of all arrangements of a record with these fields. -/
def Record.Steady (fields : List (String × Place)) (f : Record → Except ReadError α) : Prop :=
  ∀ ⦃r r' : Record⦄ ⦃a : α⦄, Rearranges (.record fields) (.object r) (.object r') →
    f r = .ok a → f r' = .ok a

namespace Record.Steady

variable {fields : List (String × Place)} {name : String} {f : Json → Except ReadError α}

theorem pure : Record.Steady fields fun _ => .ok a := fun _ _ _ _ hr => hr

theorem bind {f : Record → Except ReadError α} {g : α → Record → Except ReadError β}
    (hf : Record.Steady fields f) (hg : ∀ a, Record.Steady fields (g a)) :
    Record.Steady fields fun r => f r >>= fun a => g a r := by
  intro r r' b h hr
  obtain ⟨a, ha, hb⟩ := Except.bind_ok.mp hr
  exact Except.bind_ok.mpr ⟨a, hf h ha, hg a h hb⟩

theorem required (hname : fields.lookup name = some q) (hf : Json.Steady q f) :
    Record.Steady fields fun r => r.required name f := by
  intro r r' a h hr
  obtain ⟨v, hv, ha⟩ := Record.required_ok.mp hr
  obtain ⟨w, hw, ha⟩ := h.steady_field hname hf hv ha
  exact Record.required_ok.mpr ⟨w, hw, ha⟩

theorem withDefault {default : α} (hname : fields.lookup name = some q) (hf : Json.Steady q f) :
    Record.Steady fields fun r => r.withDefault name default f := by
  intro r r' a h hr
  refine Record.withDefault_ok.mpr ?_
  obtain ⟨hv, rfl⟩ | ⟨v, hv, ha⟩ := Record.withDefault_ok.mp hr
  · obtain ⟨m', hm', hrel⟩ := h.field? hname hv
    cases hrel
    exact .inl ⟨hm', rfl⟩
  · obtain ⟨w, hw, ha⟩ := h.steady_field hname hf hv ha
    exact .inr ⟨w, hw, ha⟩

end Record.Steady

/-- To rearrange an element of an array of fields is to rearrange the field. -/
theorem Rearranges.zip {fields : List (String × Place)} {vs ws : List Json}
    (h : Rearranges (.record fields) (.array vs) (.array ws))
    (hnodup : (fields.map (·.1)).Nodup) (hle : vs.length ≤ fields.length) :
    ws.length = vs.length ∧
      Rearranges (.record fields) (.object ((fields.map (·.1)).zip vs))
        (.object ((fields.map (·.1)).zip ws)) := by
  cases h with
  | element helement =>
    rename_i vs vs' v w
    rw [List.length_append, List.length_cons] at hle
    obtain ⟨front, ⟨name, q⟩, back, rfl, hfront⟩ :
        ∃ front field back, fields = front ++ field :: back ∧ front.length = vs.length := by
      have hlt : vs.length < fields.length := by omega
      refine ⟨fields.take vs.length, fields[vs.length], fields.drop (vs.length + 1), ?_, ?_⟩
      · rw [List.getElem_cons_drop, List.take_append_drop]
      · rw [List.length_take, Nat.min_eq_left (Nat.le_of_lt hlt)]
    have hnew : ∀ x ∈ front, x.1 ≠ name := by
      rw [List.map_append, List.map_cons] at hnodup
      intro x hx he
      exact (List.nodup_append.mp hnodup).2.2 x.1 (List.mem_map_of_mem hx) name (by simp) he
    have hlookup : (front ++ (name, q) :: back).lookup name = some q :=
      List.lookup_eq_some_iff.mpr ⟨front, back, rfl, fun x hx => by simpa using (hnew x hx).symm⟩
    have hzip : ∀ u, ((front ++ (name, q) :: back).map (·.1)).zip (vs ++ u :: vs') =
        (front.map (·.1)).zip vs ++ (name, u) :: (back.map (·.1)).zip vs' := fun u => by
      rw [List.map_append, List.map_cons, List.zip_append (by simpa using hfront)]
      rfl
    refine ⟨by simp, ?_⟩
    rw [hzip, hzip]
    refine .member ?_
    simpa [Place.element, Place.member, Place.fields?, ← hfront, hlookup] using helement

/-- A record is read from an object or from an array of its fields, either of them however
arranged. -/
theorem Steady.record {reading : Reading} {fields : List (String × Place)} {names : List String}
    {f : Record → Except ReadError α} (hnames : fields.map (·.1) = names) (hnodup : names.Nodup)
    (hf : Record.Steady fields f) : Steady (.record fields) (asRecord reading names f) := by
  subst hnames
  intro v w a h hv
  have hstep := h
  cases h with
  | permute | insert | member => exact hf hstep hv
  | unreadable => cases hv
  | element =>
    obtain ⟨b, hb, hlength⟩ := Except.bind_ok.mp hv
    split at hlength
    · rename_i hle
      obtain ⟨hsame, hfields⟩ := hstep.zip hnodup (by simpa using hle)
      refine Except.bind_ok.mpr ⟨b, hf hfields hb, ?_⟩
      rwa [if_pos (hsame ▸ hle)]
    · cases hlength

/-! ## Tagged objects -/

section

variable {tag name : String} {cases : List (String × List (String × Place))} {rest : Json}

theorem asOneOf_ok {names : List String} :
    asOneOf names v = .ok name ↔ v = .string name ∧ name ∈ names := by
  rw [asOneOf, Except.bind_ok]
  constructor
  · rintro ⟨s, hs, hname⟩
    split at hname
    · obtain rfl := Except.ok.inj hname
      cases v <;> cases hs
      exact ⟨rfl, List.contains_iff_mem.mp ‹_›⟩
    · cases hname
  · rintro ⟨rfl, hname⟩
    exact ⟨name, rfl, if_pos (List.contains_iff_mem.mpr hname)⟩

theorem takeField_ok {ms others : Record} {f : Json → Except ReadError α} :
    takeField name f ms = .ok (a, others) ↔
      others = ms.filter (·.1 != name) ∧ readableMembers others = true ∧
        ms.required name f = .ok a := by
  rw [takeField]
  constructor
  · intro h
    split at h
    · obtain ⟨b, hb, hpair⟩ := Except.bind_ok.mp h
      obtain ⟨rfl, rfl⟩ := Prod.mk.inj (Except.ok.inj hpair)
      exact ⟨rfl, ‹_›, hb⟩
    · cases h
  · rintro ⟨rfl, hreadable, ha⟩
    rw [if_pos hreadable, ha]
    rfl

theorem asTagged_object_ok {ms : Record} {names : List String} :
    asTagged tag names (.object ms) = .ok (name, rest) ↔
      rest = .object (ms.filter (·.1 != tag)) ∧ rest.readable = true ∧
        ms.field? tag = .ok (some (.string name)) ∧ name ∈ names := by
  rw [asTagged, Except.bind_ok]
  constructor
  · rintro ⟨⟨s, others⟩, htake, hpair⟩
    obtain ⟨rfl, rfl⟩ := Prod.mk.inj (Except.ok.inj hpair)
    obtain ⟨rfl, hreadable, hrequired⟩ := takeField_ok.mp htake
    obtain ⟨u, hu, hs⟩ := Record.required_ok.mp hrequired
    obtain ⟨rfl, hname⟩ := asOneOf_ok.mp hs
    exact ⟨rfl, hreadable, hu, hname⟩
  · rintro ⟨rfl, hreadable, hfield, hname⟩
    exact ⟨_, takeField_ok.mpr ⟨rfl, hreadable,
      Record.required_ok.mpr ⟨_, hfield, asOneOf_ok.mpr ⟨rfl, hname⟩⟩⟩, rfl⟩

theorem asTagged_array_ok {vs : List Json} {names : List String} :
    asTagged tag names (.array vs) = .ok (name, rest) ↔
      ∃ us, vs = .string name :: us ∧ rest = .array us ∧ rest.readable = true ∧ name ∈ names := by
  cases vs with
  | nil => simp [asTagged]
  | cons t us =>
    rw [asTagged, Except.bind_ok]
    constructor
    · rintro ⟨s, hs, hpair⟩
      obtain ⟨others, hhold, hpair⟩ := Except.bind_ok.mp hpair
      obtain ⟨rfl, rfl⟩ := Prod.mk.inj (Except.ok.inj hpair)
      obtain ⟨rfl, hname⟩ := asOneOf_ok.mp hs
      rw [hold] at hhold
      split at hhold
      · obtain rfl := Except.ok.inj hhold
        exact ⟨us, rfl, rfl, ‹_›, hname⟩
      · cases hhold
    · rintro ⟨us, he, rfl, hreadable, hname⟩
      obtain ⟨rfl, rfl⟩ := List.cons.inj he
      refine ⟨name, asOneOf_ok.mpr ⟨rfl, hname⟩, ?_⟩
      rw [hold, if_pos hreadable]
      rfl

/-- An arrangement of a tagged object has its tag, and what remains without it is an arrangement of
what remained. -/
theorem Rearranges.untagged {ms ms' : Record} {fields : List (String × Place)}
    (h : Rearranges (.tagged tag cases) (.object ms) (.object ms'))
    (htag : ms.field? tag = .ok (some (.string name))) (hcase : cases.lookup name = some fields) :
    ms'.field? tag = .ok (some (.string name)) ∧
      Rearranges (.record fields) (.object (ms.filter (·.1 != tag)))
        (.object (ms'.filter (·.1 != tag))) := by
  have hfields : (Place.tagged tag cases).fields? (.object ms)
      = some ((tag, .plain) :: fields) := by
    simp [Place.fields?, tag?, Record.lookup_of_field? htag, hcase]
  cases h with
  | permute hperm =>
    have hstep : Rearranges (.record [(tag, .plain)]) (.object ms) (.object ms') := .permute hperm
    obtain ⟨m', hm', hrel⟩ := hstep.field? (q := .plain) (by simp) htag
    refine ⟨?_, .permute (hperm.filter _)⟩
    cases hrel with
    | some hvw =>
      cases hvw with
      | refl => exact hm'
      | single hvw => cases hvw
  | insert hfields' hfield hnew hv =>
    obtain rfl := Option.some.inj (hfields.symm.trans hfields')
    rw [List.map_cons, List.mem_cons, not_or] at hfield
    refine ⟨by rwa [Record.field?_cons_of_ne hfield.1], ?_⟩
    rw [List.filter_cons_of_pos (by simpa using hfield.1)]
    refine .insert rfl hfield.2 (fun hmem => ?_) hv
    obtain ⟨m, hm, he⟩ := List.mem_map.mp hmem
    exact hnew (List.mem_map.mpr ⟨m, (List.mem_filter.mp hm).1, he⟩)
  | member hmember =>
    rename_i ms ms' key v w
    by_cases hkey : key = tag
    · -- the tag itself is a string, of which there is no other arrangement
      subst hkey
      have hfound : (key, v) ∈ (ms ++ (key, v) :: ms').filter (·.1 == key) := by simp
      rw [Record.field?_ok.mp htag] at hfound
      obtain rfl : v = .string name := by simpa using hfound
      cases hmember
    · rw [Record.field?_append_cons_of_ne hkey] at htag ⊢
      refine ⟨htag, ?_⟩
      rw [List.filter_append, List.filter_append, List.filter_cons_of_pos (by simpa using hkey),
        List.filter_cons_of_pos (by simpa using hkey)]
      refine .member ?_
      have hne : (key == tag) = false := beq_eq_false_iff_ne.mpr hkey
      rw [Place.member, hfields] at hmember
      simpa [Place.member, Place.fields?, List.lookup_cons, hne] using hmember

/-- What remains of an arrangement of a tagged object, or of an array that begins with the tag, is
an arrangement of what remained. -/
theorem Rearranges.asTagged (h : Rearranges (.tagged tag cases) v w)
    (hv : v.asTagged tag (cases.map (·.1)) = .ok (name, rest)) :
    ∃ fields rest', (name, fields) ∈ cases ∧ Rearranges (.record fields) rest rest' ∧
      w.asTagged tag (cases.map (·.1)) = .ok (name, rest') := by
  have hcase : ∀ name ∈ cases.map (·.1), ∃ fields,
      (name, fields) ∈ cases ∧ cases.lookup name = some fields := fun name hname => by
    obtain ⟨c, hc, rfl⟩ := List.mem_map.mp hname
    obtain ⟨fields, hfields⟩ :=
      Option.isSome_iff_exists.mp (List.lookup_isSome_iff.mpr ⟨c, hc, beq_self_eq_true c.1⟩)
    obtain ⟨front, back, rfl, -⟩ := List.lookup_eq_some_iff.mp hfields
    exact ⟨fields, by simp, hfields⟩
  match v, w, h with
  | .object ms, .object ms', h =>
    obtain ⟨rfl, hreadable, htag, hname⟩ := asTagged_object_ok.mp hv
    obtain ⟨fields, hmem, hfields⟩ := hcase name hname
    obtain ⟨htag', hrest⟩ := h.untagged htag hfields
    exact ⟨fields, _, hmem, hrest,
      asTagged_object_ok.mpr ⟨rfl, hrest.readable hreadable, htag', hname⟩⟩
  | .array vs, .array ws, h =>
    obtain ⟨us, rfl, rfl, hreadable, hname⟩ := asTagged_array_ok.mp hv
    obtain ⟨fields, hmem, hfields⟩ := hcase name hname
    generalize hvs : Json.string name :: us = vs at h
    cases h with
    | element helement =>
      rename_i front back v w
      cases front with
      | nil =>
        obtain ⟨rfl, rfl⟩ := List.cons.inj hvs
        cases helement
      | cons t front =>
        obtain ⟨rfl, rfl⟩ := List.cons.inj hvs
        have hrest : Rearranges (.record fields) (.array (front ++ v :: back))
            (.array (front ++ w :: back)) := by
          refine .element ?_
          simpa [Place.element, Place.fields?, tag?, hfields] using helement
        exact ⟨fields, _, hmem, hrest,
          asTagged_array_ok.mpr ⟨_, rfl, rfl, hrest.readable hreadable, hname⟩⟩

/-- A tagged object is read steadily when the records of all tags are. -/
theorem Steady.tagged {names : List String} {f : String × Json → Except ReadError α}
    (hnames : cases.map (·.1) = names)
    (hf : ∀ c ∈ cases, Steady (.record c.2) fun rest => f (c.1, rest)) :
    Steady (.tagged tag cases) fun v => v.asTagged tag names >>= f := by
  subst hnames
  intro v w a h hv
  obtain ⟨⟨name, rest⟩, htagged, ha⟩ := Except.bind_ok.mp hv
  obtain ⟨fields, rest', hmem, hrest, hw⟩ := h.asTagged htagged
  exact Except.bind_ok.mpr ⟨(name, rest'), hw, hf _ hmem hrest ha⟩

end

end SchemaEvolution.Json
