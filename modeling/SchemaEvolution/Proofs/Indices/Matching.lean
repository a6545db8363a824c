import SchemaEvolution.Proofs.Indices.KeyStep
import SchemaEvolution.Proofs.Walk.Start

/-!
# The indices of the database match the keys of the tables

A schema and a database match when the database has, for every table, the indices of those keys that
are intact. Every edit that SQLite can be asked for keeps them matched, whatever it does to columns
and keys, so they match at every point of every walk.
-/

namespace SchemaEvolution

variable {id : String} {present : Catalog} {ss : List Ddl}

/-! ## Statements about one table -/

/-- What is told about a table only brings indices of that table. -/
theorem Ddl.mem_of_foldl_onCatalog {entry : String × String}
    (h : entry ∈ ss.foldl (onCatalog id) present) : entry ∈ present ∨ entry.2 = id := by
  induction ss generalizing present with
  | nil => exact Or.inl h
  | cons x ss ih =>
    rcases ih h with h | h
    · cases x with
      | createIndex unique table name columns =>
        rcases List.mem_cons.mp h with rfl | h
        · exact Or.inr rfl
        · exact Or.inl h
      | dropIndex table name => exact Or.inl (List.mem_filter.mp h).1
      | dropTable table => exact Or.inl (List.mem_filter.mp h).1
      | _ => exact Or.inl h
    · exact Or.inr h

/-- An index of another table stays, unless it is dropped by name. -/
theorem Ddl.mem_foldl_onCatalog_of_ne {entry : String × String} (hid : entry.2 ≠ id)
    (hss : ∀ table, .dropIndex table entry.1 ∉ ss) (h : entry ∈ present) :
    entry ∈ ss.foldl (onCatalog id) present := by
  induction ss generalizing present with
  | nil => exact h
  | cons x ss ih =>
    refine ih (fun table hin => hss table (List.mem_cons_of_mem _ hin)) ?_
    cases x with
    | createIndex unique table name columns => exact List.mem_cons_of_mem _ h
    | dropIndex table name =>
      refine List.mem_filter.mpr ⟨h, bne_iff_ne.mpr fun he => hss table ?_⟩
      rw [he]
      exact List.mem_cons_self
    | dropTable table => exact List.mem_filter.mpr ⟨h, bne_iff_ne.mpr hid⟩
    | _ => exact h

/-! ## One table -/

namespace KeyStep

variable {t t' : LiveTable} {e : TableEdit} {intact : String → Prop}

/-- Only indices of keys of the table are dropped. -/
theorem drops (hk : KeyStep t t' e ss) {table name : String} (hin : .dropIndex table name ∈ ss) :
    ∃ k ∈ t.keys, k.name = name := by
  cases hk with
  | keep hss =>
    cases hss _ hin
  | gain k hss =>
    rcases hss with ⟨-, rfl⟩ | ⟨-, rfl⟩
    · simp at hin
    · simp at hin
  | lose k hk hss =>
    rcases hss with rfl | ⟨-, rfl⟩
    · simp only [List.mem_singleton, Ddl.dropIndex.injEq] at hin
      exact ⟨k, hk, hin.2.symm⟩
    · simp at hin
  | rebuild first second table' hfirst hsecond hss =>
    subst hss
    simp only [List.mem_append, List.mem_cons, reduceCtorEq, false_or, Dialect.creations,
      List.mem_map, and_false, exists_false, or_false] at hin
    rcases hin with hin | hin
    · cases hfirst _ hin
    · cases hsecond _ hin
  | dropColumn column ht hss =>
    subst hss
    simp only [List.mem_append, List.mem_map, List.mem_singleton, reduceCtorEq, or_false,
      Ddl.dropIndex.injEq] at hin
    obtain ⟨k, hk, -, rfl⟩ := hin
    exact ⟨k, LiveTable.mem_keys_of_indexed (List.mem_filter.mp hk).1, rfl⟩

/-- Which keys are intact once an edit has taken a table from `t` to `t'`: those that it makes, and
those that were intact and that it does not break. -/
def IntactAfter (t t' : LiveTable) (e : TableEdit) (ss : List Ddl) (intact : String → Prop)
    (name : String) : Prop :=
  (∃ k ∈ t'.keys, k.name = name ∧ (e.addedKey? = some name ∨
    ((∃ table, .dropTable table ∈ ss) ∧ k.isComplete t'.columns = true))) ∨
  (intact name ∧ ¬ ∃ k ∈ t.keys, k.name = name ∧
    ∃ column, e.removedColumn? = some column ∧ k.mentions column = true)

theorem intactAfter_same {name : String} (hss : ∀ table, .dropTable table ∉ ss)
    (hadded : e.addedKey? = none) (hremoved : e.removedColumn? = none) :
    IntactAfter t t' e ss intact name ↔ intact name := by
  simp [IntactAfter, hss, hadded, hremoved]

theorem intactAfter_gain {k : IndexShape} {name : String} (hk : k ∈ t'.keys)
    (hss : ∀ table, .dropTable table ∉ ss) (hadded : e.addedKey? = some k.name)
    (hremoved : e.removedColumn? = none) :
    IntactAfter t t' e ss intact name ↔ name = k.name ∨ intact name := by
  simp only [IntactAfter, hadded, hremoved, hss, exists_false, false_and, or_false, reduceCtorEq,
    and_false, not_false_eq_true, and_true, Option.some.injEq]
  refine or_congr_left ⟨?_, ?_⟩
  · rintro ⟨k', -, -, hname⟩
    exact hname.symm
  · rintro rfl
    exact ⟨k, hk, rfl, rfl⟩

/-- Whatever is done to the keys of a table, the database has the indices that it should have. -/
theorem matched (hk : KeyStep t t' e ss) (hn : t.keyNames.Nodup)
    (h : t.Matched (fun name => (name, id) ∈ present) intact) :
    t'.Matched (fun name => (name, id) ∈ ss.foldl (Ddl.onCatalog id) present)
      (IntactAfter t t' e ss intact) := by
  cases hk with
  | keep hss hadded hremoved hkeys hnames =>
    have hdrops : ∀ table, .dropTable table ∉ ss := fun table hin => by cases hss _ hin
    refine (h.keep hkeys hnames).congr
      (fun k _ => ⟨?_, intactAfter_same hdrops hadded hremoved⟩) fun name => ?_
    · rw [Ddl.foldl_onCatalog_of_not hss]
    · rw [Ddl.foldl_onCatalog_of_not hss]
      exact fun hin => hin
  | gain k hss hadded hremoved hnew hkeys hcolumns hcomplete hindexed =>
    have hdrops : ∀ table, .dropTable table ∉ ss := by
      rcases hss with ⟨-, rfl⟩ | ⟨-, rfl⟩ <;> simp
    -- the index is created exactly if the key is to be an index
    have hhere : ∀ name, (name, id) ∈ ss.foldl (Ddl.onCatalog id) present ↔
        (name, id) ∈ present ∨ (name = k.name ∧ k ∈ t'.indexed) := by
      intro name
      rcases hss with ⟨hin, rfl⟩ | ⟨hout, rfl⟩
      · simp [Ddl.onCatalog, hin, or_comm]
      · simp [hout]
    exact (h.gain hnew hkeys hcolumns hcomplete hindexed).congr
      (fun k' _ => ⟨hhere k'.name,
        intactAfter_gain ((hkeys k).mpr (Or.inl rfl)) hdrops hadded hremoved⟩)
      fun name => (hhere name).mp
  | lose k hk hss hadded hremoved hkeys hcolumns hindexed =>
    have hdrops : ∀ table, .dropTable table ∉ ss := by
      rcases hss with rfl | ⟨-, rfl⟩ <;> simp
    have hdropped : ∀ k' ∈ t.indexed, k'.name = k.name → ss = [.dropIndex t.name k.name] := by
      intro k' hk' hname
      obtain rfl := LiveTable.eq_of_mem_keys hn (LiveTable.mem_keys_of_indexed hk') hk hname
      exact hss.resolve_right fun hout => hout.1 hk'
    have hhere : ∀ name, (name, id) ∈ ss.foldl (Ddl.onCatalog id) present ↔
        (name, id) ∈ present ∧ (ss = [.dropIndex t.name k.name] → name ≠ k.name) := by
      intro name
      rcases hss with rfl | ⟨-, rfl⟩
      · simp [Ddl.onCatalog]
      · simp
    exact (h.lose hkeys hcolumns hindexed hdropped).congr
      (fun k' _ => ⟨hhere k'.name, intactAfter_same hdrops hadded hremoved⟩)
      fun name => (hhere name).mp
  | rebuild first second table hfirst hsecond hss hadded hremoved hkeys hcolumns =>
    have hdrop : ∃ table, .dropTable table ∈ ss := by
      rw [hss]
      exact ⟨table, List.mem_append_right _ List.mem_cons_self⟩
    -- all indices of the table go with it, and those that are created then are there
    have hhere : ∀ name, (name, id) ∈ ss.foldl (Ddl.onCatalog id) present ↔
        ∃ k ∈ t'.indexed.filter (·.isComplete t'.columns), k.name = name := by
      intro name
      rw [hss, List.foldl_append, Ddl.foldl_onCatalog_of_not hfirst, List.foldl_cons,
        List.foldl_append, Ddl.foldl_onCatalog_of_not hsecond, Dialect.creations,
        Ddl.mem_foldl_createIndex, Ddl.onCatalog]
      simp
    refine (h.rebuild hn hkeys hcolumns).congr (fun k' _ => ⟨hhere k'.name, ?_⟩)
      fun name => (hhere name).mp
    simp [IntactAfter, hadded, hremoved, hdrop]
  | dropColumn column ht hss hadded hremoved =>
    subst ht
    have hdrops : ∀ table, .dropTable table ∉ ss := by
      rw [hss]
      simp
    have hhere : ∀ name, (name, id) ∈ ss.foldl (Ddl.onCatalog id) present ↔
        (name, id) ∈ present ∧ ∀ k ∈ t.indexed.filter (·.mentions column), k.name ≠ name := by
      intro name
      rw [hss, List.foldl_append]
      exact Ddl.mem_foldl_dropIndex
    refine (h.dropColumn hn).congr (fun k' _ => ⟨hhere k'.name, ?_⟩) fun name => (hhere name).mp
    simp [IntactAfter, hadded, hremoved, hdrops]

/-- The indices of a table whose keys have other names are not touched. -/
theorem matched_other {u : LiveTable} (hk : KeyStep t t' e ss) (hid : u.id ≠ id)
    (hold : ∀ k ∈ u.keys, ∀ k' ∈ t.keys, k'.name ≠ k.name)
    (hnew : ∀ k ∈ u.keys, ∀ k' ∈ t'.keys, k'.name ≠ k.name)
    (h : u.Matched (fun name => (name, u.id) ∈ present) intact) :
    u.Matched (fun name => (name, u.id) ∈ ss.foldl (Ddl.onCatalog id) present)
      (IntactAfter t t' e ss intact) := by
  refine h.congr (fun k hku => ⟨⟨fun hin => ?_, fun hin => ?_⟩, ?_⟩) fun name hin => ?_
  · exact (Ddl.mem_of_foldl_onCatalog hin).resolve_right hid
  · refine Ddl.mem_foldl_onCatalog_of_ne hid (fun table hdrop => ?_) hin
    obtain ⟨k', hk', hname⟩ := hk.drops hdrop
    exact hold k hku k' hk' hname
  · rw [IntactAfter, or_iff_right fun ⟨k', hk', hname, _⟩ => hnew k hku k' hk' hname,
      and_iff_left fun ⟨k', hk', hname, _⟩ => hold k hku k' hk' hname]
  · exact (Ddl.mem_of_foldl_onCatalog hin).resolve_right hid

end KeyStep

/-! ## All tables -/

theorem LiveTable.Matched.of_sameKeys {t u : LiveTable} {here intact : String → Prop}
    (h : u.Matched here intact) (hsame : t.SameKeys u) : t.Matched here intact := by
  constructor
  · rw [hsame.keys, hsame.columns]
    exact h.complete
  · rw [hsame.keys, hsame.indexed]
    exact h.present
  · rw [hsame.keys]
    exact h.known

namespace LiveSchema

variable {history : SchemaHistory} {version : String} {s s' : LiveSchema} {t a b : LiveTable}
  {intact : String → Prop} {e : TableEdit} {operations : List Operation}

/-- Whether the database has the indices that it should have. -/
structure Matched (s : LiveSchema) (present : Catalog) (intact : String → Prop) : Prop where
  sound : s.Sound
  declared : s.Declared .sqlite
  tables : ∀ t ∈ s.tables, t.Matched (fun name => (name, t.id) ∈ present) intact
  ids : ∀ entry ∈ present, entry.2 ∈ s.ids

/-- Keys of different tables have different names. -/
theorem Sound.key_ne (h : s.Sound) (ha : a ∈ s.tables) (hb : b ∈ s.tables) (hne : a.id ≠ b.id)
    {k k' : IndexShape} (hk : k ∈ a.keys) (hk' : k' ∈ b.keys) : k.name ≠ k'.name := by
  exact fun he => hne (congrArg LiveTable.id (h.eq_of_keyName ha hb
    (LiveTable.mem_keyNames_of_keys hk) (he ▸ LiveTable.mem_keyNames_of_keys hk')))

/-- Whatever an edit does, the database has the indices that it should have. -/
theorem Matched.effect {present : Catalog} (h : s.Matched present intact)
    (ht : s.table? id = some t) (hc : t.created = !e.isCreation)
    (he : Effect ⟨.sqlite, history⟩ version s t e s' operations) :
    s'.Matched ((operations.flatMap (·.statements)).foldl (Ddl.onCatalog id) present)
      (fun name => (⟨s, id, e, s', operations⟩ : Change).Makes name ∨
        (intact name ∧ ¬ (⟨s, id, e, s', operations⟩ : Change).Breaks name)) := by
  obtain ⟨t', hplaced, hid, hk⟩ := he.keyStep h.sound h.declared ht hc
  have hsound := he.sound h.sound ht hc
  obtain ⟨hm, rfl⟩ := table?_eq_some ht
  obtain ⟨u, hu, hsame⟩ := hplaced.self
  rw [hid] at hu
  obtain ⟨hum, huid⟩ := table?_eq_some hu
  -- what makes a key intact and what breaks it concern the keys of this table alone
  have hintact : (fun name => (⟨s, t.id, e, s', operations⟩ : Change).Makes name ∨
      (intact name ∧ ¬ (⟨s, t.id, e, s', operations⟩ : Change).Breaks name))
      = KeyStep.IntactAfter t t' e (operations.flatMap (·.statements)) intact := by
    funext name
    rw [Change.makes_iff hu, Change.breaks_iff ht, hsame.keys, hsame.columns]
    rfl
  rw [hintact]
  refine ⟨hsound, he.declared h.declared hm, fun v hv => ?_, fun entry hentry => ?_⟩
  · by_cases hvid : v.id = t.id
    · obtain rfl : v = u := by
        have hv := table?_eq_of_mem hsound.distinct hv
        rw [hvid] at hv
        exact Option.some.inj (hv.symm.trans hu)
      rw [huid]
      exact (hk.matched (h.sound.keyNames_nodup hm) (h.tables t hm)).of_sameKeys hsame
    · obtain ⟨w, hw, hwid, hkept⟩ := hplaced.others v hv (by rw [hid]; exact hvid)
      refine LiveTable.Matched.of_sameKeys ?_ hkept
      rw [← hwid] at hvid ⊢
      refine hk.matched_other hvid (fun k hkw k' hk' => ?_) (fun k hkw k' hk' => ?_) (h.tables w hw)
      · exact (h.sound.key_ne hw hm hvid hkw hk').symm
      · exact (hsound.key_ne hv hum (by rw [huid, ← hwid]; exact hvid) (hkept.keys ▸ hkw)
          (hsame.keys ▸ hk')).symm
  · rw [hplaced.ids]
    rcases Ddl.mem_of_foldl_onCatalog hentry with hin | hin
    · exact h.ids entry hin
    · rw [hin]
      exact List.mem_map_of_mem hm

/-- An edit that finds nothing to do makes nothing intact and breaks nothing. -/
theorem Matched.idle {present : Catalog} (h : s.Matched present intact)
    (hidle : ∀ t, s.table? id = some t → e.isCreation = t.created) :
    s.Matched present (fun name => (⟨s, id, e, s, []⟩ : Change).Makes name ∨
      (intact name ∧ ¬ (⟨s, id, e, s, []⟩ : Change).Breaks name)) := by
  -- only a table that is created has keys, and it is not edited when it is to be created
  have hkeys : ∀ t, s.table? id = some t → ∀ k ∈ t.keys, e.isCreation = true := by
    intro t ht k hk
    rw [hidle t ht]
    by_contra hc
    have hblank := (h.sound.blank t (table?_eq_some ht).1 (by simpa using hc)).2
    have hname := LiveTable.mem_keyNames_of_keys hk
    rw [hblank] at hname
    cases hname
  have hmakes : ∀ name, ¬ (⟨s, id, e, s, []⟩ : Change).Makes name := by
    rintro name ⟨t, ht, k, hk, -, hadded | ⟨⟨table, hin⟩, -⟩⟩
    · have hc := hkeys t ht k hk
      cases e <;> cases hc
      cases hadded
    · cases hin
  have hbreaks : ∀ name, ¬ (⟨s, id, e, s, []⟩ : Change).Breaks name := by
    rintro name ⟨t, ht, k, hk, -, column, hremoved, -⟩
    have hc := hkeys t ht k hk
    cases e <;> cases hc
    cases hremoved
  simpa only [hmakes, hbreaks, false_or, not_false_eq_true, and_true] using h

/-! ## All along a walk -/

variable {xs : List Change}

/-- An edit keeps schema and database matched. -/
theorem Matched.edit {edit : String × TableEdit} (h : s.Matched (catalog xs) (Intact xs))
    (he : s.edit ⟨.sqlite, history⟩ version edit = .ok (s', operations)) :
    s'.Matched (catalog (xs ++ [⟨s, edit.1, edit.2, s', operations⟩]))
      (Intact (xs ++ [⟨s, edit.1, edit.2, s', operations⟩])) := by
  have hintact : Intact (xs ++ [⟨s, edit.1, edit.2, s', operations⟩])
      = fun name => (⟨s, edit.1, edit.2, s', operations⟩ : Change).Makes name ∨
        (Intact xs name ∧ ¬ (⟨s, edit.1, edit.2, s', operations⟩ : Change).Breaks name) :=
    funext fun _ => propext intact_concat
  rw [catalog_concat, hintact]
  rcases edit_ok he with ⟨rfl, rfl, hidle⟩ | ⟨t, ht, hc, heffect⟩
  · exact h.idle hidle
  · exact h.effect ht hc heffect

theorem Matched.takeDue {present : Catalog} (h : s.Matched present intact) :
    (s.takeDue version).1.Matched present intact := by
  have htables : (s.takeDue version).1.tables
      = s.tables.map fun t => { t with pending := TableStep.beyond version t.pending } :=
    takeDue_tables
  refine ⟨h.sound.takeDue, h.declared.takeDue, fun u hu => ?_, fun entry hentry => ?_⟩
  · obtain ⟨t, ht, rfl⟩ := List.mem_map.mp (htables ▸ hu)
    exact (h.tables t ht).of_sameKeys ⟨rfl, rfl, rfl⟩
  · rw [LiveSchema.ids, htables, List.map_map]
    exact h.ids entry hentry

/-- Before the first version there is nothing on either side. -/
theorem matched_start (hs : start history = .ok s) : s.Matched (catalog []) (Intact []) := by
  have hblank : ∀ t ∈ s.tables, t.keys = [] := by
    intro t ht
    obtain ⟨_, -, name, ht⟩ := tables_start hs ht
    rw [ht]
    rfl
  refine ⟨sound_start hs, declared_start hs, fun t ht => ⟨fun k hk => ?_, fun k hk => ?_,
    fun name hin => absurd hin List.not_mem_nil⟩, fun entry hin => absurd hin List.not_mem_nil⟩
  · rw [hblank t ht] at hk
    cases hk
  · rw [hblank t ht] at hk
    cases hk

/-- At the end of a walk, the database that its statements lead to has the indices that it should
have. -/
theorem matched_walk {versions : List String} {w : Walk} (hs : start history = .ok s)
    (hw : s.walk ⟨.sqlite, history⟩ versions = .ok w) :
    w.final.Matched (catalog (changes ⟨.sqlite, history⟩ s versions))
      (Intact (changes ⟨.sqlite, history⟩ s versions)) :=
  changes_invariant (P := fun s xs => s.Matched (catalog xs) (Intact xs))
    (fun _ _ _ h => h.takeDue) (fun _ _ _ _ _ _ h he => h.edit he) (sound_start hs)
    (matched_start hs) hw

end LiveSchema

end SchemaEvolution
