import SchemaEvolution.Proofs.Walk.Start

/-!
# The names of keys

Constraints and indices are known by name, and a name is in use as long as one of them has it. The
list of names that are in use agrees with the tables in every state that a build can reach, and no
name stands in two places. So, although a key is removed by taking away whatever has its name in the
list that it belongs to, that is one key and no other.
-/

namespace SchemaEvolution

/-- A constraint or an index. -/
inductive NamedKey where
  | constraint (k : Constraint)
  | index (i : IndexShape)
  deriving DecidableEq, Repr

namespace NamedKey

def name : NamedKey → String
  | .constraint k => k.name
  | .index i => i.name

end NamedKey

/-- What is said of a key, apart from its name, when it is removed. -/
inductive KeyRemoval where
  | constraint (kind : KeyKind)
  | index (kind : IndexKind)
  deriving DecidableEq, Repr

/-- Whether a key is one that can be removed so. Whether an index is unique need not be said. -/
def KeyRemoval.fits : KeyRemoval → NamedKey → Bool
  | .constraint .primary, .constraint k => k.isPrimaryKey
  | .constraint .foreign, .constraint k => !k.isPrimaryKey
  | .index _, .index _ => true
  | _, _ => false

namespace LiveTable

variable {t : LiveTable} {name : String}

/-- The constraints and the indices of a table. -/
def namedKeys (t : LiveTable) : List NamedKey :=
  t.constraints.map .constraint ++ t.indices.map .index

theorem map_name_namedKeys : t.namedKeys.map (·.name) = t.keyNames := by
  simp only [namedKeys, keyNames, List.map_append, List.map_map]
  rfl

/-- What else has the name of a constraint has no other place to be. -/
theorem namedKeys_withoutConstraint (hn : t.keyNames.Nodup)
    (hm : name ∈ t.constraints.map (·.name)) :
    (LiveSchema.withoutConstraint t name).namedKeys = t.namedKeys.filter (·.name != name) := by
  have hindices : (t.indices.map NamedKey.index).filter (·.name != name)
      = t.indices.map NamedKey.index := by
    refine List.filter_eq_self.mpr fun k hk => ?_
    obtain ⟨i, hi, rfl⟩ := List.mem_map.mp hk
    have := (List.nodup_append.mp hn).2.2 name hm i.name (List.mem_map_of_mem hi)
    exact bne_iff_ne.mpr this.symm
  rw [namedKeys, namedKeys, List.filter_append, hindices, List.filter_map]
  rfl

theorem namedKeys_withoutIndex (hn : t.keyNames.Nodup) (hm : name ∈ t.indices.map (·.name)) :
    ({ t with indices := t.indices.filter (·.name != name) } : LiveTable).namedKeys
      = t.namedKeys.filter (·.name != name) := by
  have hconstraints : (t.constraints.map NamedKey.constraint).filter (·.name != name)
      = t.constraints.map NamedKey.constraint := by
    refine List.filter_eq_self.mpr fun k hk => ?_
    obtain ⟨i, hi, rfl⟩ := List.mem_map.mp hk
    have := (List.nodup_append.mp hn).2.2 i.name (List.mem_map_of_mem hi) name hm
    exact bne_iff_ne.mpr this
  rw [namedKeys, namedKeys, List.filter_append, hconstraints, List.filter_map]
  rfl

end LiveTable

/-- Where names differ, one element has a name. -/
theorem filter_name_split {α : Type} {f : α → String} {front back : List α} {a : α}
    (h : ((front ++ a :: back).map f).Nodup) :
    (front ++ a :: back).filter (f · != f a) = front ++ back := by
  rw [List.map_append, List.map_cons, List.nodup_middle, ← List.map_append, List.nodup_cons] at h
  have hkept : ∀ b ∈ front ++ back, (f b != f a) = true := fun b hb =>
    bne_iff_ne.mpr fun he => h.1 (he ▸ List.mem_map_of_mem hb)
  rw [List.filter_append, List.filter_cons_of_neg (by simp), ← List.filter_append]
  exact List.filter_eq_self.mpr hkept

namespace LiveSchema

/-- Removes a key of the table with an id. -/
def removeKey (c : Setting) (version id : String) (s : LiveSchema) (removal : KeyRemoval)
    (name : String) : Outcome :=
  match removal with
  | .constraint kind => s.editConstraint c version id (.remove kind name)
  | .index kind => s.editIndex c version id (.remove kind name)

/-- What a build goes through: the schema at the start, and from there on, whenever steps are taken
from the tables as being due, and whenever an edit of a table succeeds. -/
inductive Reached (c : Setting) : LiveSchema → Prop
  | start {s} (h : start c.history = .ok s) : Reached c s
  | due {s} (h : Reached c s) (version : String) : Reached c (s.takeDue version).1
  | edit {s version e s' operations} (h : Reached c s)
      (he : s.edit c version e = .ok (s', operations)) : Reached c s'

variable {c : Setting} {version id name : String} {s s' : LiveSchema} {t t' : LiveTable}
  {k : NamedKey} {removal : KeyRemoval} {operations : List Operation}

theorem Reached.sound (h : Reached c s) : s.Sound := by
  induction h with
  | start h => exact sound_start h
  | due h version ih => exact ih.takeDue
  | edit h he ih => exact ih.edit he

/-- A build goes through the state after each version. -/
theorem Reached.advance (h : Reached c s) (he : s.advance c version = .ok (s', operations)) :
    Reached c s' :=
  forEach_invariant (fun _ _ _ _ _ h => h.edit) (h.due version) (advance_script h.sound he)

theorem Reached.walk {versions : List String} {w : Walk} (h : Reached c s)
    (hw : s.walk c versions = .ok w) : Reached c w.final :=
  forEach_invariant (fun _ _ _ _ _ h => h.advance) h (walk_ok hw)

/-- What a schema is after one key of a table has been taken away, and nothing else. -/
structure TakesAway (s : LiveSchema) (t : LiveTable) (k : NamedKey) (s' : LiveSchema) : Prop where
  enums : s'.enums = s.enums
  used : k.name ∈ s.names
  names : ∀ name, name ∈ s'.names ↔ name ∈ s.names ∧ name ≠ k.name
  tables : ∃ before after t', s.tables = before ++ t :: after ∧
    s'.tables = before ++ t' :: after ∧
    t' = { t with constraints := t'.constraints, indices := t'.indices } ∧
    ∃ front back, t.namedKeys = front ++ k :: back ∧ t'.namedKeys = front ++ back

/-- A key is taken away by the name that it alone has. -/
theorem Sound.takesAway (h : s.Sound) (ht : s.table? t.id = some t) (hk : k ∈ t.namedKeys)
    (ht' : t' = { t with constraints := t'.constraints, indices := t'.indices })
    (hkeys : t'.namedKeys = t.namedKeys.filter (·.name != k.name)) :
    TakesAway s t k ((s.release k.name).setTable t') := by
  have hm := (table?_eq_some ht).1
  have hid : s.table? t'.id = some t := by rw [ht']; exact ht
  obtain ⟨before, after, hs, hs'⟩ := setTable_split h.distinct hid
  obtain ⟨front, back, hsplit⟩ := List.append_of_mem hk
  have hnodup : ((front ++ k :: back).map (·.name)).Nodup := by
    rw [← hsplit, LiveTable.map_name_namedKeys]
    exact h.keyNames_nodup hm
  refine ⟨rfl, ?_, fun name => ?_, before, after, t', hs, hs', ht', front, back, hsplit, ?_⟩
  · refine (h.names _).mpr (List.mem_flatMap.mpr ⟨t, hm, ?_⟩)
    rw [← LiveTable.map_name_namedKeys]
    exact List.mem_map_of_mem hk
  · show name ∈ s.names.filter (· != k.name) ↔ _
    rw [List.mem_filter, bne_iff_ne]
  · rw [hkeys, hsplit]
    exact filter_name_split hnodup

theorem Sound.removeKey (h : s.Sound) (ht : s.table? id = some t)
    (he : s.removeKey c version id removal name = .ok (s', operations)) :
    ∃ k ∈ t.namedKeys, removal.fits k = true ∧ k.name = name ∧ TakesAway s t k s' := by
  obtain ⟨hm, rfl⟩ := table?_eq_some ht
  have hn := h.keyNames_nodup hm
  rcases removal with (_ | _) | kind
  · -- a primary key
    simp only [LiveSchema.removeKey, editConstraint, withTable, ht] at he
    obtain ⟨key, hkey, rfl, rfl, -⟩ := removePrimaryKey_ok.mp he
    have hk := (LiveTable.mem_of_primaryKey? hkey).1
    exact ⟨.constraint (.primaryKey key.name key.columns),
      List.mem_append_left _ (List.mem_map_of_mem hk), rfl, rfl,
      h.takesAway ht (List.mem_append_left _ (List.mem_map_of_mem hk)) rfl
        (LiveTable.namedKeys_withoutConstraint hn (List.mem_map_of_mem hk))⟩
  · -- a foreign key
    simp only [LiveSchema.removeKey, editConstraint, withTable, ht] at he
    obtain ⟨⟨k, hk, hkind, rfl⟩, rfl, -⟩ := removeForeignKey_ok.mp he
    refine ⟨.constraint k, List.mem_append_left _ (List.mem_map_of_mem hk), ?_, rfl,
      h.takesAway ht (List.mem_append_left _ (List.mem_map_of_mem hk)) rfl
        (LiveTable.namedKeys_withoutConstraint hn (List.mem_map_of_mem hk))⟩
    simp [KeyRemoval.fits, hkind]
  · -- an index
    simp only [LiveSchema.removeKey, editIndex, withTable, ht] at he
    obtain ⟨⟨i, hi, rfl⟩, rfl, -⟩ := removeIndex_ok.mp he
    exact ⟨.index i, List.mem_append_right _ (List.mem_map_of_mem hi), rfl, rfl,
      h.takesAway ht (List.mem_append_right _ (List.mem_map_of_mem hi)) rfl
        (LiveTable.namedKeys_withoutIndex hn (List.mem_map_of_mem hi))⟩

/-- In every state of a build, the names in use are those of the constraints and indices of all
tables, each of one of them only; a table has one primary key at most, and columns with names of
their own; and when a key is removed, that key and its name go, and nothing else. -/
theorem key_names_exact (h : Reached c s) :
    (∀ name, name ∈ s.names ↔ ∃ t ∈ s.tables, ∃ k ∈ t.namedKeys, k.name = name) ∧
      (s.tables.flatMap fun t => t.namedKeys.map (·.name)).Nodup ∧
      (∀ t ∈ s.tables, t.constraints.countP (·.isPrimaryKey) ≤ 1 ∧ t.columnNames.Nodup) ∧
      ∀ version t removal name s' operations, s.table? t.id = some t →
        s.removeKey c version t.id removal name = .ok (s', operations) →
        ∃ k ∈ t.namedKeys, removal.fits k = true ∧ k.name = name ∧ TakesAway s t k s' := by
  have hs := h.sound
  refine ⟨fun name => ?_, ?_, fun t ht => ⟨hs.primary t ht, hs.columns t ht⟩,
    fun version t removal name s' operations ht he => hs.removeKey ht he⟩
  · rw [hs.names, keyNames, List.mem_flatMap]
    simp only [← LiveTable.map_name_namedKeys, List.mem_map]
  · simp only [LiveTable.map_name_namedKeys]
    exact hs.keys

/-- A table with a primary key and an index, both in use. -/
def keyedBooks : SchemaHistory where
  tables := [⟨"books",
    [⟨"1", some "books", [.add "id" { type := .serial }, .add "title" { type := .text }],
        [.addPrimaryKey "books_key" ["id"]], [.add .unique "books_title" ["title"]]⟩]⟩]

theorem key_names_exact_keyedBooks :
    ∃ s s' operations, Reached ⟨.postgres, keyedBooks⟩ s ∧
      s.removeKey ⟨.postgres, keyedBooks⟩ "2" "books" (.index .unique) "books_title"
        = .ok (s', operations) ∧
      s.names = ["books_title", "books_key"] ∧
      (∀ name, name ∈ s.names ↔ ∃ t ∈ s.tables, ∃ k ∈ t.namedKeys, k.name = name) ∧
      ∀ name, name ∈ s'.names ↔ name ∈ s.names ∧ name ≠ "books_title" := by
  obtain ⟨start, w, s', operations, t, hs, hw, he, ht, hid, hnames⟩ :
      ∃ start w s' operations t, LiveSchema.start keyedBooks = .ok start ∧
        start.walk ⟨.postgres, keyedBooks⟩ ["1"] = .ok w ∧
        w.final.removeKey ⟨.postgres, keyedBooks⟩ "2" "books" (.index .unique) "books_title"
          = .ok (s', operations) ∧
        w.final.table? "books" = some t ∧ t.id = "books" ∧
        w.final.names = ["books_title", "books_key"] :=
    ⟨_, _, _, _, _, rfl, rfl, rfl, rfl, rfl, rfl⟩
  have hreached : Reached ⟨.postgres, keyedBooks⟩ w.final :=
    (Reached.start (c := ⟨.postgres, keyedBooks⟩) hs).walk hw
  obtain ⟨hinuse, -, -, hremove⟩ := key_names_exact hreached
  obtain ⟨k, -, -, hname, htaken⟩ := hremove "2" t (.index .unique) "books_title" s' operations
    (hid ▸ ht) (hid ▸ he)
  exact ⟨w.final, s', operations, hreached, he, hnames, hinuse, hname ▸ htaken.names⟩

end LiveSchema

end SchemaEvolution
