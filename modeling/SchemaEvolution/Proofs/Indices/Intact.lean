import SchemaEvolution.Proofs.Indices.Catalog

/-!
# Keys that are intact

A key is intact as long as the columns that it lists have stood in its table without a break. When
one of them is removed the index goes with it, but the table keeps the key; and when a column of
that name is added again, the key is complete as before and the index is not there. Only a rebuild
brings it back.
-/

namespace SchemaEvolution

/-! ## What makes a key intact, and what breaks it -/

namespace TableEdit

/-- The name of the key that an edit adds. -/
def addedKey? : TableEdit → Option String
  | .constraint (.addPrimaryKey name _) => some name
  | .index (.add _ name _) => some name
  | _ => none

end TableEdit

namespace Change

/-- Whether a change builds its table anew. -/
def Rebuilds (x : Change) : Prop := ∃ table, .dropTable table ∈ x.statements

/-- Whether a change adds a key to its table, or builds the table anew with all columns that the key
lists. -/
def Makes (x : Change) (name : String) : Prop :=
  ∃ t, x.after.table? x.id = some t ∧ ∃ k ∈ t.keys, k.name = name ∧
    (x.edit.addedKey? = some name ∨ (x.Rebuilds ∧ k.isComplete t.columns = true))

/-- Whether a change removes a column that a key of its table lists. -/
def Breaks (x : Change) (name : String) : Prop :=
  ∃ t, x.before.table? x.id = some t ∧ ∃ k ∈ t.keys, k.name = name ∧
    ∃ column, x.edit.removedColumn? = some column ∧ k.mentions column = true

variable {x : Change} {t : LiveTable} {name : String}

theorem makes_iff (ht : x.after.table? x.id = some t) :
    x.Makes name ↔ ∃ k ∈ t.keys, k.name = name ∧
      (x.edit.addedKey? = some name ∨ (x.Rebuilds ∧ k.isComplete t.columns = true)) := by
  simp [Makes, ht]

theorem breaks_iff (ht : x.before.table? x.id = some t) :
    x.Breaks name ↔ ∃ k ∈ t.keys, k.name = name ∧
      ∃ column, x.edit.removedColumn? = some column ∧ k.mentions column = true := by
  simp [Breaks, ht]

end Change

/-- Whether a key has been made, and not been broken since. -/
def Intact (xs : List Change) (name : String) : Prop :=
  ∃ passed x since, xs = passed ++ x :: since ∧ x.Makes name ∧ ∀ y ∈ since, ¬ y.Breaks name

theorem intact_concat {xs : List Change} {x : Change} {name : String} :
    Intact (xs ++ [x]) name ↔ x.Makes name ∨ (Intact xs name ∧ ¬ x.Breaks name) :=
  exists_since_concat

/-! ## One table -/

namespace LiveTable

variable {t t' : LiveTable} {here here' intact intact' : String → Prop} {k : IndexShape}
  {column name : String} {dropped : Prop}

/-- Whether the database has the indices of a table that it should have: those of the keys that are
intact, all of which are complete. `here` says which indices it has, by name. -/
structure Matched (t : LiveTable) (here intact : String → Prop) : Prop where
  complete : ∀ k ∈ t.keys, intact k.name → k.isComplete t.columns = true
  present : ∀ k ∈ t.keys, intact k.name → (here k.name ↔ k ∈ t.indexed)
  known : ∀ name, here name → intact name ∧ ∃ k ∈ t.keys, k.name = name

/-- Nothing has changed for the keys of the table. -/
theorem Matched.congr (h : t.Matched here intact)
    (hkeys : ∀ k ∈ t.keys, (here' k.name ↔ here k.name) ∧ (intact' k.name ↔ intact k.name))
    (hhere : ∀ name, here' name → here name) : t.Matched here' intact' := by
  constructor
  · intro k hk hintact
    exact h.complete k hk ((hkeys k hk).2.mp hintact)
  · intro k hk hintact
    rw [(hkeys k hk).1]
    exact h.present k hk ((hkeys k hk).2.mp hintact)
  · intro name hname
    obtain ⟨hintact, k, hk, rfl⟩ := h.known name (hhere name hname)
    exact ⟨(hkeys k hk).2.mpr hintact, k, hk, rfl⟩

/-- The table has the same keys under the same names, and those that were complete are as before. -/
theorem Matched.keep (h : t.Matched here intact)
    (hkeys : ∀ k' ∈ t'.keys, ∃ k ∈ t.keys, k.name = k'.name ∧
      (k.isComplete t.columns = true →
        k'.isComplete t'.columns = true ∧ (k' ∈ t'.indexed ↔ k ∈ t.indexed)))
    (hnames : ∀ k ∈ t.keys, ∃ k' ∈ t'.keys, k'.name = k.name) : t'.Matched here intact := by
  constructor
  · intro k' hk' hintact
    obtain ⟨k, hk, hname, hkept⟩ := hkeys k' hk'
    rw [← hname] at hintact
    exact (hkept (h.complete k hk hintact)).1
  · intro k' hk' hintact
    obtain ⟨k, hk, hname, hkept⟩ := hkeys k' hk'
    rw [← hname] at hintact ⊢
    rw [h.present k hk hintact, (hkept (h.complete k hk hintact)).2]
  · intro name hname
    obtain ⟨hintact, k, hk, rfl⟩ := h.known name hname
    exact ⟨hintact, hnames k hk⟩

/-- The table gets a key, whose columns it has. -/
theorem Matched.gain (h : t.Matched here intact) (hnew : ∀ k' ∈ t.keys, k'.name ≠ k.name)
    (hkeys : ∀ k', k' ∈ t'.keys ↔ k' = k ∨ k' ∈ t.keys) (hcolumns : t'.columns = t.columns)
    (hcomplete : k.isComplete t.columns = true)
    (hindexed : ∀ k' ∈ t.keys, k' ∈ t'.indexed ↔ k' ∈ t.indexed) :
    t'.Matched (fun n => here n ∨ (n = k.name ∧ k ∈ t'.indexed))
      (fun n => n = k.name ∨ intact n) := by
  have hfree : ¬ here k.name := fun hhere => by
    obtain ⟨-, k', hk', hname⟩ := h.known k.name hhere
    exact hnew k' hk' hname
  constructor
  · intro k' hk' hintact
    rw [hcolumns]
    rcases (hkeys k').mp hk' with rfl | hk'
    · exact hcomplete
    · rcases hintact with hname | hintact
      · exact absurd hname (hnew k' hk')
      · exact h.complete k' hk' hintact
  · intro k' hk' hintact
    rcases (hkeys k').mp hk' with rfl | hk'
    · exact ⟨fun hhere => (hhere.resolve_left hfree).2, fun hin => Or.inr ⟨rfl, hin⟩⟩
    · have hne := hnew k' hk'
      rw [or_iff_left fun hboth => hne hboth.1, hindexed k' hk']
      exact h.present k' hk' (hintact.resolve_left hne)
  · rintro n (hhere | ⟨rfl, -⟩)
    · obtain ⟨hintact, k', hk', hname⟩ := h.known n hhere
      exact ⟨Or.inr hintact, k', (hkeys k').mpr (Or.inr hk'), hname⟩
    · exact ⟨Or.inl rfl, k, (hkeys k).mpr (Or.inl rfl), rfl⟩

/-- The table loses a key, and the index of that name goes, at least if there is one. -/
theorem Matched.lose (h : t.Matched here intact)
    (hkeys : ∀ k, k ∈ t'.keys ↔ k ∈ t.keys ∧ k.name ≠ name) (hcolumns : t'.columns = t.columns)
    (hindexed : ∀ k ∈ t'.keys, k ∈ t'.indexed ↔ k ∈ t.indexed)
    (hdropped : ∀ k ∈ t.indexed, k.name = name → dropped) :
    t'.Matched (fun n => here n ∧ (dropped → n ≠ name)) intact := by
  constructor
  · intro k hk hintact
    rw [hcolumns]
    exact h.complete k ((hkeys k).mp hk).1 hintact
  · intro k hk hintact
    obtain ⟨hold, hne⟩ := (hkeys k).mp hk
    rw [and_iff_left fun _ => hne, hindexed k hk]
    exact h.present k hold hintact
  · rintro n ⟨hhere, hne⟩
    obtain ⟨hintact, k, hk, rfl⟩ := h.known n hhere
    have hin : k ∈ t.indexed := (h.present k hk hintact).mp hhere
    exact ⟨hintact, k, (hkeys k).mpr ⟨hk, fun hname => hne (hdropped k hin hname) hname⟩, rfl⟩

/-- The table is built anew, and its indices with it. -/
theorem Matched.rebuild (h : t.Matched here intact) (hn : t.keyNames.Nodup)
    (hkeys : t'.keys = t.keys) (hcolumns : t'.columnNames = t.columnNames) :
    t'.Matched (fun n => ∃ k ∈ t'.indexed.filter (·.isComplete t'.columns), k.name = n)
      (fun n => (∃ k ∈ t'.keys, k.name = n ∧ k.isComplete t'.columns = true) ∨ intact n) := by
  have hsame : ∀ k : IndexShape,
      k.isComplete t'.columns = true ↔ k.isComplete t.columns = true := fun k => by
    rw [isComplete_iff, isComplete_iff, hcolumns]
  -- an index of some name is the index of the one key of that name
  have hunique : ∀ a ∈ t'.keys, ∀ b ∈ t'.keys, a.name = b.name → a = b := by
    rw [hkeys]
    exact fun a ha b hb => eq_of_mem_keys hn ha hb
  have hcomplete : ∀ k ∈ t'.keys, ((∃ k' ∈ t'.keys, k'.name = k.name ∧
      k'.isComplete t'.columns = true) ∨ intact k.name) → k.isComplete t'.columns = true := by
    rintro k hk (⟨k', hk', hname, hcomplete⟩ | hintact)
    · rw [hunique k hk k' hk' hname.symm]
      exact hcomplete
    · exact (hsame k).mpr (h.complete k (hkeys ▸ hk) hintact)
  constructor
  · exact hcomplete
  · intro k hk hintact
    constructor
    · rintro ⟨k', hk', hname⟩
      obtain ⟨hin, -⟩ := List.mem_filter.mp hk'
      rw [← hunique k' (mem_keys_of_indexed hin) k hk hname]
      exact hin
    · intro hin
      exact ⟨k, List.mem_filter.mpr ⟨hin, hcomplete k hk hintact⟩, rfl⟩
  · rintro n ⟨k, hk, rfl⟩
    obtain ⟨hin, hc⟩ := List.mem_filter.mp hk
    have hk := mem_keys_of_indexed hin
    exact ⟨Or.inl ⟨k, hk, rfl, hc⟩, k, hk, rfl⟩

/-- A column is removed, and before it the indices that mention it. -/
theorem Matched.dropColumn (h : t.Matched here intact) (hn : t.keyNames.Nodup) :
    (t.dropColumn column).Matched
      (fun n => here n ∧ ∀ k ∈ t.indexed.filter (·.mentions column), k.name ≠ n)
      (fun n => intact n ∧ ¬ ∃ k ∈ t.keys, k.name = n ∧ k.mentions column = true) := by
  have hkeys : (t.dropColumn column).keys = t.keys := rfl
  -- to a key that does not mention the column it makes no difference
  have hserial : ∀ k : IndexShape, column ∉ k.columns →
      isOneSerial k.columns (t.dropColumn column).columns = isOneSerial k.columns t.columns := by
    intro k hk
    rw [Bool.eq_iff_iff, isOneSerial_iff, isOneSerial_iff]
    constructor
    · rintro ⟨c, hc, hcolumns, hs⟩
      exact ⟨c, (List.mem_filter.mp hc).1, hcolumns, hs⟩
    · rintro ⟨c, hc, hcolumns, hs⟩
      refine ⟨c, List.mem_filter.mpr ⟨hc, ?_⟩, hcolumns, hs⟩
      rw [hcolumns, List.mem_singleton] at hk
      simpa using Ne.symm hk
  constructor
  · rintro k hk ⟨hintact, hkept⟩
    rw [hkeys] at hk
    have hnot : column ∉ k.columns := fun hin => hkept ⟨k, hk, rfl, by simpa [IndexShape.mentions]⟩
    have hcomplete := isComplete_iff.mp (h.complete k hk hintact)
    refine isComplete_iff.mpr fun c hc => ?_
    rw [columnNames_dropColumn, List.mem_filter, bne_iff_ne]
    exact ⟨hcomplete c hc, fun he => hnot (he ▸ hc)⟩
  · rintro k hk ⟨hintact, hkept⟩
    rw [hkeys] at hk
    have hnot : column ∉ k.columns := fun hin => hkept ⟨k, hk, rfl, by simpa [IndexShape.mentions]⟩
    have hindexed : k ∈ (t.dropColumn column).indexed ↔ k ∈ t.indexed := by
      rw [mem_indexed, mem_indexed, hserial k hnot]
      rfl
    rw [hindexed, ← h.present k hk hintact, and_iff_left]
    intro k' hk' hname
    obtain ⟨hin, hmentions⟩ := List.mem_filter.mp hk'
    exact hkept ⟨k', mem_keys_of_indexed hin, hname, hmentions⟩
  · rintro n ⟨hhere, hkept⟩
    obtain ⟨hintact, k, hk, rfl⟩ := h.known n hhere
    refine ⟨⟨hintact, ?_⟩, k, hk, rfl⟩
    rintro ⟨k', hk', hname, hmentions⟩
    obtain rfl := eq_of_mem_keys hn hk' hk hname
    exact hkept k' (List.mem_filter.mpr ⟨(h.present k' hk' hintact).mp hhere, hmentions⟩) rfl

end LiveTable

end SchemaEvolution
