import SchemaEvolution.Proofs.Extension.Wider
import SchemaEvolution.Proofs.Walk.Start

/-!
# Where both walks begin

Before the first version, the schema of an extended history is wider than that of the history
itself. What a table has in addition are the steps that its first history has in addition.
-/

namespace SchemaEvolution

open LiveSchema

/-- The steps that the table with an id has in the second history only. -/
def SchemaHistory.laterSteps (h h' : SchemaHistory) (id : String) : List TableStep :=
  match h.table? id, h'.table? id with
  | some t, some t' => t'.steps.drop t.steps.length
  | _, _ => []

namespace SchemaHistory.Extends

variable {allowed : Addition → String → Prop} {h h' : SchemaHistory}

/-- A table that is there has its own steps first, and then the later ones. -/
theorem table? (hx : h.Extends allowed h') {id : String} {t : TableHistory}
    (ht : h.table? id = some t) :
    h'.table? id = some { t with steps := t.steps ++ h.laterSteps h' id } ∧
      ∀ step ∈ h.laterSteps h' id, allowed .table step.version := by
  obtain ⟨old, further, htables, hold, -⟩ := hx.tables
  obtain ⟨t', hfound, steps, rfl, hsteps⟩ := find?_of_forall₂ hold
    (q := fun t : TableHistory => t.id == id)
    (fun a b hr => by obtain ⟨steps, rfl, -⟩ := hr; rfl) ht
  have ht' : h'.table? id = some { t with steps := t.steps ++ steps } := by
    rw [SchemaHistory.table?, htables, List.find?_append, hfound]
    rfl
  have hlater : h.laterSteps h' id = steps := by
    rw [laterSteps, ht, ht']
    exact List.drop_left
  rw [hlater]
  exact ⟨ht', hsteps⟩

theorem enum? (hx : h.Extends allowed h') {text : String} {e : EnumHistory}
    (he : h.enum? text = some e) :
    ∃ e', h'.enum? text = some e' ∧ e.Continues (allowed .enumStep) e' := by
  obtain ⟨old, further, henums, hold, -⟩ := hx.enums
  obtain ⟨e', hfound, hcontinues⟩ := find?_of_forall₂ hold
    (q := fun e : EnumHistory => e.isDesignatedBy text)
    (fun a b hr => by
      rw [EnumHistory.isDesignatedBy, hr.name_eq.1, hr.name_eq.2, EnumHistory.isDesignatedBy]) he
  refine ⟨e', ?_, hcontinues⟩
  rw [SchemaHistory.enum?, henums, List.find?_append, hfound]
  rfl

/-- What a history and its extension agree upon, when no table gets a step at a released label, and
in MySQL no enum that is there does. -/
def widening {d : Dialect} (hx : h.Extends allowed h') (hl : h.GrowsLater h')
    (htable : ∀ version, allowed .table version → version ∉ h.timeline)
    (henum : d = .mysql → ∀ version, allowed .enumStep version → version ∉ h.timeline) :
    Widening ⟨d, h⟩ ⟨d, h'⟩ where
  later := h.laterSteps h'
  grown := EnumHistory.Continues (allowed .enumStep)
  dialect := rfl
  unreleased := by
    intro id step hstep
    cases ht : h.table? id with
    | none => simp [laterSteps, ht] at hstep
    | some t => exact htable _ ((hx.table? ht).2 step hstep)
  enum? := fun text e he => hx.enum? he
  texts := fun e e' he => he.name_eq
  snapshot? := by
    intro e e' he version hv s hs
    have hold : e'.snapshotAt? h'.timeline version = e'.snapshotAt? h.timeline version := by
      rw [hx.timeline_eq hl]
      exact EnumHistory.snapshotAt?_append hv
    obtain ⟨s', hs'⟩ := Option.isSome_iff_exists.mp
      (he.snapshotAt?_isSome (Option.isSome_iff_exists.mpr ⟨s, hs⟩))
    refine ⟨s', hold.trans hs', ?_, fun hd => ?_⟩
    · rw [(EnumHistory.snapshotAt?_name hs').1, (EnumHistory.snapshotAt?_name hs).1, he.name_eq.1]
    · have hsame : e'.snapshotAt? h.timeline version = e.snapshotAt? h.timeline version :=
        he.snapshotAt?_eq fun v hv hallowed => henum hd v hallowed hv
      exact Option.some.inj (hs'.symm.trans (hsame.trans hs))

/-! ## The first schema -/

theorem ofHistory_wider {c c' : Setting} (x : Widening c c') {t t' : TableHistory}
    {u u' : LiveTable} (ht : t' = { t with steps := t.steps ++ x.later t.id })
    (hu : LiveTable.ofHistory t = .ok u) (hu' : LiveTable.ofHistory t' = .ok u') :
    u' = x.table u := by
  obtain ⟨first, rest, name, hs, hn, -, rfl⟩ := LiveTable.ofHistory_ok hu
  obtain ⟨first', rest', name', hs', hn', -, rfl⟩ := LiveTable.ofHistory_ok hu'
  subst ht
  have hfirst : first' = first := by
    have heq : first :: (rest ++ x.later t.id) = first' :: rest' := by
      rw [← hs', hs]
      rfl
    exact (List.cons.inj heq).1.symm
  rw [hfirst, hn] at hn'
  rw [← Option.some.inj hn']
  rfl

/-- The tables of a history and those of an extension of it, whose further tables come last. -/
theorem tablesOf_wider {c c' : Setting} (x : Widening c c') {ids : List String}
    {ts old further : List TableHistory} {us us' : List LiveTable}
    (hold : List.Forall₂ (fun t t' => t'.id = t.id) ts old)
    (hsteps : ∀ id ∉ ids, ∀ t, ts.find? (·.id == id) = some t →
      old.find? (·.id == id) = some { t with steps := t.steps ++ x.later id })
    (hs : tablesOf ids ts = .ok us) (hs' : tablesOf ids (old ++ further) = .ok us') :
    ∃ fresh ids', us' = us.map x.table ++ fresh ∧ tablesOf ids' further = .ok fresh := by
  induction hold generalizing ids us us' with
  | nil =>
    obtain rfl := Except.ok.inj hs
    exact ⟨us', ids, rfl, hs'⟩
  | @cons t t' ts old hid _ ih =>
    have htail : ∀ id ∉ ids, t.id ≠ id → ∀ u, ts.find? (·.id == id) = some u →
        old.find? (·.id == id) = some { u with steps := u.steps ++ x.later id } := by
      intro id hnew hne u hu
      have hfound := hsteps id hnew u
      rw [List.find?_cons_of_neg (by simpa using hne),
        List.find?_cons_of_neg (by simpa [hid] using hne)] at hfound
      exact hfound hu
    rw [List.cons_append] at hs'
    -- a table whose id has occurred is left out on both sides
    rcases tablesOf_cons_ok.mp hs with ⟨hin, hs⟩ | ⟨hnew, u, vs, hu, hvs, rfl⟩
    · rcases tablesOf_cons_ok.mp hs' with ⟨-, hs'⟩ | ⟨hnew', -⟩
      · exact ih (fun id hnew => htail id hnew fun he => hnew (he ▸ hin)) hs hs'
      · exact absurd (hid ▸ hin) hnew'
    · rcases tablesOf_cons_ok.mp hs' with ⟨hin', -⟩ | ⟨-, u', vs', hu', hvs', rfl⟩
      · exact absurd (hid ▸ hin') hnew
      · have hhead := hsteps t.id hnew t (List.find?_cons_of_pos (by simp))
        rw [List.find?_cons_of_pos (by simp [hid])] at hhead
        rw [hid] at hvs'
        obtain ⟨fresh, ids', rfl, hfresh⟩ := ih (fun id hid => htail id
          (fun h => hid (List.mem_cons_of_mem _ h)) fun he => hid (he ▸ List.mem_cons_self))
          hvs hvs'
        exact ⟨fresh, ids',
          by rw [ofHistory_wider x (Option.some.inj hhead) hu hu']; rfl, hfresh⟩

/-- Before the first version, the schema of the extended history is wider. -/
theorem wider_start {d : Dialect} {s s' : LiveSchema} (hx : h.Extends allowed h')
    (hl : h.GrowsLater h') (htable : ∀ version, allowed .table version → version ∉ h.timeline)
    (henum : d = .mysql → ∀ version, allowed .enumStep version → version ∉ h.timeline)
    (hs : start h = .ok s) (hs' : start h' = .ok s') :
    (hx.widening hl htable henum).Wider s s' := by
  obtain ⟨tables, ht, rfl⟩ := start_ok hs
  obtain ⟨tables', ht', rfl⟩ := start_ok hs'
  obtain ⟨old, further, htables, hold, hfurther⟩ := hx.tables
  have hn := (tablesOf_ok ht').1
  rw [htables] at ht'
  obtain ⟨fresh, ids', rfl, hfresh⟩ := tablesOf_wider (hx.widening hl htable henum)
    (hold.imp fun _ _ hr => by obtain ⟨steps, rfl, -⟩ := hr; rfl)
    (fun id _ t hfind => by
      have hfound := (hx.table? (t := t) hfind).1
      obtain ⟨t', ht', -⟩ := find?_of_forall₂ hold
        (q := fun t : TableHistory => t.id == id)
        (fun a b hr => by obtain ⟨steps, rfl, -⟩ := hr; rfl) hfind
      rw [SchemaHistory.table?, htables, List.find?_append, ht'] at hfound
      exact ht'.trans hfound)
    ht ht'
  -- the further tables have ids and labels of their own
  refine ⟨⟨fresh, rfl, fun u hu => ?_⟩, rfl, rfl, .nil, rfl⟩
  obtain ⟨t, hm, hof⟩ := mem_tablesOf hfresh hu
  obtain ⟨first, rest, name, -, -, -, rfl⟩ := LiveTable.ofHistory_ok hof
  refine ⟨fun hin => ?_, rfl, fun step hstep => htable _ ((hfurther t hm).2 step hstep)⟩
  rw [List.map_append, List.map_map, List.nodup_append] at hn
  exact hn.2.2 t.id hin t.id (List.mem_map_of_mem hu) rfl

end SchemaHistory.Extends

end SchemaEvolution
