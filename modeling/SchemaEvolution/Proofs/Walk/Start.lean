import SchemaEvolution.Proofs.Walk.Replay

/-!
# Before the first version

A walk starts with one table for each id, which is not created yet and has all its steps to come.
-/

namespace SchemaEvolution

theorem LiveTable.firstUnordered?_eq_none {steps : List TableStep} :
    firstUnordered? steps = none ↔ steps.Pairwise (·.version < ·.version) := by
  induction steps with
  | nil => simp [firstUnordered?]
  | cons a steps ih =>
    cases steps with
    | nil => simp [firstUnordered?]
    | cons b rest =>
      rw [firstUnordered?, List.pairwise_cons]
      split
      · next h =>
        rw [ih]
        refine ⟨fun hp => ⟨fun step hs => ?_, hp⟩, fun hp => hp.2⟩
        rcases List.mem_cons.mp hs with rfl | hs
        · exact h
        · exact String.lt_trans h ((List.pairwise_cons.mp hp).1 step hs)
      · next h =>
        simp only [reduceCtorEq, false_iff]
        exact fun hp => h (hp.1 b List.mem_cons_self)

/-- A table has a first step with a name, and its labels ascend. -/
theorem LiveTable.ofHistory_ok {t : TableHistory} {u : LiveTable} (h : ofHistory t = .ok u) :
    ∃ first rest name, t.steps = first :: rest ∧ first.name = some name ∧
      t.steps.Pairwise (·.version < ·.version) ∧
      u = ⟨t.id, name, [], [], [], false, t.steps⟩ := by
  unfold ofHistory at h
  split at h
  · cases h
  · next first rest hs =>
    split at h
    · cases h
    · next name hn =>
      split at h
      · cases h
      · next ho =>
        exact ⟨first, rest, name, hs, hn, firstUnordered?_eq_none.mp ho, (Except.ok.inj h).symm⟩

namespace LiveSchema

variable {ids : List String} {ts : List TableHistory} {tables : List LiveTable} {id : String}

theorem tablesOf_cons_ok {t : TableHistory} :
    tablesOf ids (t :: ts) = .ok tables ↔
      (t.id ∈ ids ∧ tablesOf ids ts = .ok tables) ∨
        (t.id ∉ ids ∧ ∃ u us, LiveTable.ofHistory t = .ok u ∧ tablesOf (t.id :: ids) ts = .ok us ∧
          tables = u :: us) := by
  rw [tablesOf]
  split
  · next h => simp [h]
  · next h =>
    simp only [Except.bind_ok, Except.pure_ok, h, false_and, false_or, not_false_iff, true_and]
    refine exists_congr fun u => ?_
    simp only [@eq_comm _ tables, exists_and_left]

/-- There is one table for each id that is new, and it is made from the first history with it. -/
theorem tablesOf_ok (h : tablesOf ids ts = .ok tables) :
    (tables.map (·.id)).Nodup ∧ (∀ u ∈ tables, u.id ∉ ids) ∧
      ∀ id ∉ ids, match ts.find? (·.id == id) with
        | none => tables.find? (·.id == id) = none
        | some t => ∃ u, tables.find? (·.id == id) = some u ∧ LiveTable.ofHistory t = .ok u := by
  induction ts generalizing ids tables with
  | nil =>
    obtain rfl := Except.ok.inj h
    simp
  | cons t ts ih =>
    rcases tablesOf_cons_ok.mp h with ⟨hin, h⟩ | ⟨hnew, u, us, hu, hus, rfl⟩
    · obtain ⟨hn, hout, hfind⟩ := ih h
      refine ⟨hn, hout, fun id hid => ?_⟩
      have hne : t.id ≠ id := fun he => hid (he ▸ hin)
      rw [List.find?_cons_of_neg (by simpa using hne)]
      exact hfind id hid
    · obtain ⟨hn, hout, hfind⟩ := ih hus
      obtain ⟨first, rest, name, -, -, -, rfl⟩ := LiveTable.ofHistory_ok hu
      refine ⟨?_, ?_, fun id hid => ?_⟩
      · rw [List.map_cons, List.nodup_cons]
        refine ⟨fun hm => ?_, hn⟩
        obtain ⟨v, hv, he⟩ := List.mem_map.mp hm
        exact hout v hv (he ▸ List.mem_cons_self)
      · rw [List.forall_mem_cons]
        exact ⟨hnew, fun v hv hin => hout v hv (List.mem_cons_of_mem _ hin)⟩
      · by_cases he : t.id = id
        · subst he
          simp [hu]
        · rw [List.find?_cons_of_neg (by simpa using he),
            List.find?_cons_of_neg (by simpa using he)]
          exact hfind id (by simp [hid, Ne.symm he])

/-- Every table is made from a history. -/
theorem mem_tablesOf (h : tablesOf ids ts = .ok tables) {u : LiveTable} (hu : u ∈ tables) :
    ∃ t ∈ ts, LiveTable.ofHistory t = .ok u := by
  obtain ⟨hn, hout, hfind⟩ := tablesOf_ok h
  have hid := hfind u.id (hout u hu)
  have hself : tables.find? (·.id == u.id) = some u :=
    table?_eq_of_mem (s := ⟨tables, ⟨[], []⟩, []⟩) hn hu
  split at hid
  · cases hself.symm.trans hid
  · next t ht =>
    obtain ⟨v, hv, hof⟩ := hid
    obtain rfl := Option.some.inj (hself.symm.trans hv)
    exact ⟨t, List.mem_of_find?_eq_some ht, hof⟩

variable {h : SchemaHistory} {s : LiveSchema}

theorem start_ok (hs : start h = .ok s) :
    ∃ tables, tablesOf [] h.tables = .ok tables ∧ s = ⟨tables, .ofTimeline h.timeline, []⟩ := by
  simp only [start, Except.bind_ok, Except.pure_ok] at hs
  obtain ⟨tables, ht, rfl⟩ := hs
  exact ⟨tables, ht, rfl⟩

/-- The table with an id is made from the first history with it. -/
theorem table?_start (hs : start h = .ok s) (id : String) :
    match h.table? id with
    | none => s.table? id = none
    | some t => ∃ u, s.table? id = some u ∧ LiveTable.ofHistory t = .ok u := by
  obtain ⟨tables, ht, rfl⟩ := start_ok hs
  exact (tablesOf_ok ht).2.2 id List.not_mem_nil

/-- Every table that there is at the start is blank. -/
theorem tables_start (hs : start h = .ok s) {u : LiveTable} (hu : u ∈ s.tables) :
    ∃ t, h.table? u.id = some t ∧ ∃ name,
      u = ⟨u.id, name, [], [], [], false, t.steps⟩ := by
  obtain ⟨tables, ht, rfl⟩ := start_ok hs
  have hfind := table?_eq_of_mem (s := ⟨tables, _, []⟩) (tablesOf_ok ht).1 hu
  have htable := table?_start hs u.id
  cases hh : h.table? u.id with
  | none =>
    rw [hh] at htable
    exact absurd (htable.symm.trans hfind) (by simp)
  | some t =>
    rw [hh] at htable
    obtain ⟨v, hv, hof⟩ := htable
    obtain rfl := Option.some.inj (hfind.symm.trans hv)
    obtain ⟨first, rest, name, -, -, -, hu⟩ := LiveTable.ofHistory_ok hof
    have hid : u.id = t.id := congrArg LiveTable.id hu
    exact ⟨t, rfl, name, hid ▸ hu⟩

/-- A walk starts with a sound schema. -/
theorem sound_start (hs : start h = .ok s) : s.Sound := by
  have hblank : ∀ u ∈ s.tables, u.columns = [] ∧ u.keyNames = [] ∧ u.primaryKeys = 0 := by
    intro u hu
    obtain ⟨t, -, name, hu⟩ := tables_start hs hu
    rw [hu]
    exact ⟨rfl, rfl, rfl⟩
  have hkeys : s.keyNames = [] := List.flatMap_eq_nil_iff.mpr fun u hu => (hblank u hu).2.1
  obtain ⟨tables, ht, rfl⟩ := start_ok hs
  constructor
  · exact (tablesOf_ok ht).1
  · intro u hu
    rw [LiveTable.columnNames, (hblank u hu).1]
    exact .nil
  · intro u hu
    rw [(hblank u hu).2.2]
    exact Nat.zero_le 1
  · intro u hu _
    exact ⟨(hblank u hu).1, (hblank u hu).2.1⟩
  · rw [hkeys]
    exact .nil
  · intro name
    rw [hkeys]

end LiveSchema

end SchemaEvolution
