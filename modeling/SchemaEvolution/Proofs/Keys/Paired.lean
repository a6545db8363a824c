import Mathlib.Algebra.Group.Nat.Even
import Mathlib.Data.List.Chain
import SchemaEvolution.Proofs.Extension.Unwritten
import SchemaEvolution.Proofs.Keys.SerialKey
import SchemaEvolution.Proofs.Sql

/-!
# Additions and removals of primary keys in MySQL

A table gets a primary key and loses it, in turn. Each time MySQL is told so by a statement, unless
the key is exactly one serial column at that moment. So the statement that drops a key is the
counterpart of one that added it, unless the key has been turned an odd number of times in between.
-/

namespace SchemaEvolution

/-! ## Marks in turn -/

/-- Whether marks alternate, starting with an addition. -/
def Alternates (marks : List Bool) : Prop := (false :: marks).IsChain (· ≠ ·)

/-- Whether the last mark is an addition. -/
def endsAdded (marks : List Bool) : Bool := marks.getLast?.getD false

theorem endsAdded_concat {marks : List Bool} {mark : Bool} :
    endsAdded (marks ++ [mark]) = mark := by
  rw [endsAdded, List.getLast?_concat]
  rfl

/-- Marks go on alternating with one that is not the last. -/
theorem Alternates.concat {marks : List Bool} {mark : Bool} (h : Alternates marks)
    (hlast : endsAdded marks ≠ mark) : Alternates (marks ++ [mark]) := by
  rw [Alternates, ← List.cons_append]
  refine List.isChain_append.mpr ⟨h, .singleton mark, fun last hin next hnext => ?_⟩
  obtain rfl := Option.some.inj (List.getLast?_cons.symm.trans hin)
  obtain rfl := Option.some.inj hnext
  exact hlast

/-- The marks of the edits of a table. -/
def editMarks (id : String) (xs : List Change) : List Bool :=
  (xs.filter (·.id == id)).filterMap (·.edit.keyMark?)

/-- The marks of the statements that are written for a table. -/
def statementMarks (id : String) (xs : List Change) : List Bool :=
  ((xs.filter (·.id == id)).flatMap (·.statements)).filterMap (·.keyMark?)

section

variable {id : String} {xs : List Change} {x : Change}

theorem marks_concat_self (xs : List Change) (hid : x.id = id) :
    editMarks id (xs ++ [x]) = editMarks id xs ++ x.edit.keyMark?.toList ∧
      statementMarks id (xs ++ [x])
        = statementMarks id xs ++ x.statements.filterMap (·.keyMark?) := by
  unfold editMarks statementMarks
  rw [List.filter_append, List.filter_singleton, beq_iff_eq.mpr hid, cond_true,
    List.filterMap_append, List.flatMap_append, List.filterMap_append, List.flatMap_singleton]
  refine ⟨congrArg _ ?_, rfl⟩
  cases hmark : x.edit.keyMark? <;> simp [hmark]

theorem marks_concat_other (hid : x.id ≠ id) :
    editMarks id (xs ++ [x]) = editMarks id xs ∧
      statementMarks id (xs ++ [x]) = statementMarks id xs := by
  unfold editMarks statementMarks
  rw [List.filter_append, List.filter_singleton, beq_eq_false_iff_ne.mpr hid, cond_false,
    List.append_nil]
  exact ⟨rfl, rfl⟩

end

namespace Change

variable {xs since : List Change} {a x : Change} {id name : String}

/-- Whether a change adds the primary key of a table, of this name, and the changes since neither
remove it nor add one. -/
def StandsSince (a : Change) (since : List Change) (id name : String) : Prop :=
  a.id = id ∧ (∃ columns, a.edit = .constraint (.addPrimaryKey name columns)) ∧
    ∀ y ∈ since, y.id = id → y.edit.keyMark? = none

/-- Whether a change removes the primary key of a table, of this name. -/
def RemovesKey (r : Change) (id name : String) : Prop :=
  r.id = id ∧ r.edit = .constraint (.remove .primary name)

/-- How often changes turn the primary key of a table. -/
def turns (id : String) (since : List Change) : Nat := since.countP (·.turnsKey id)

theorem StandsSince.concat (h : a.StandsSince since id name)
    (hx : x.id = id → x.edit.keyMark? = none) : a.StandsSince (since ++ [x]) id name := by
  obtain ⟨hid, hadds, hsince⟩ := h
  refine ⟨hid, hadds, ?_⟩
  rw [List.forall_mem_append, List.forall_mem_singleton]
  exact ⟨hsince, hx⟩

/-- A key that is as it was at first, exactly if it has been turned evenly, stays so. -/
theorem turns_concat {first : Bool}
    (h : x.before.keyIsSerial id = first ↔ Even (turns id since)) :
    x.after.keyIsSerial id = first ↔ Even (turns id (since ++ [x])) := by
  rw [turns, List.countP_append, List.countP_singleton]
  by_cases hturn : x.before.keyIsSerial id = x.after.keyIsSerial id
  · rw [turnsKey, bne_eq_false_iff_eq.mpr hturn, ← hturn]
    exact h
  · rw [turnsKey, bne_iff_ne.mpr hturn, if_pos rfl, Nat.even_add_one]
    refine Iff.trans ?_ (not_congr h)
    -- one of the two is `first`, and the other is not
    revert hturn
    cases x.before.keyIsSerial id <;> cases x.after.keyIsSerial id <;> cases first <;> decide

end Change

/-- Whether every primary key of a table that changes remove has been turned an even number of times
since it was added. -/
def TurnsEvenly (id : String) (xs : List Change) : Prop :=
  ∀ passed a since r later name, xs = passed ++ a :: since ++ r :: later →
    a.StandsSince since id name → r.RemovesKey id name → Even (Change.turns id since)

theorem TurnsEvenly.of_concat {id : String} {xs : List Change} {x : Change}
    (h : TurnsEvenly id (xs ++ [x])) : TurnsEvenly id xs := by
  intro passed a since r later name hxs
  exact h passed a since r (later ++ [x]) name (by rw [hxs]; simp)

/-! ## The account of a table -/

/-- What is known of the primary key of a table after some changes. -/
structure KeyAccount (s : LiveSchema) (id : String) (xs : List Change) : Prop where
  edits : Alternates (editMarks id xs)
  added : endsAdded (editMarks id xs) = (s.key? id).isSome
  /-- A key that is there has been added, and is as it was then if it has been turned evenly. -/
  standing : ∀ key, s.key? id = some key → ∃ passed a since, xs = passed ++ a :: since ∧
    a.StandsSince since id key.name ∧
    (s.keyIsSerial id = a.after.keyIsSerial id ↔ Even (Change.turns id since)) ∧
    (TurnsEvenly id xs → endsAdded (statementMarks id xs) = !a.after.keyIsSerial id)
  gone : s.key? id = none → TurnsEvenly id xs → endsAdded (statementMarks id xs) = false
  statements : TurnsEvenly id xs → Alternates (statementMarks id xs)
  pairs : ∀ front r later name, xs = front ++ r :: later → r.RemovesKey id name →
    ∃ passed a since, front = passed ++ a :: since ∧ a.StandsSince since id name ∧
      (r.before.keyIsSerial id = a.after.keyIsSerial id ↔ Even (Change.turns id since))

namespace KeyAccount

variable {s s' : LiveSchema} {id : String} {xs : List Change} {x : Change}

theorem nil (hnone : s.key? id = none) : KeyAccount s id [] where
  edits := .singleton false
  added := by rw [hnone]; rfl
  standing key hkey := by cases hnone.symm.trans hkey
  gone _ _ := rfl
  statements _ := .singleton false
  pairs front r later name hsplit _ := by simp at hsplit

/-- It only matters which key a table has, and whether it is one serial column. -/
theorem congr (h : KeyAccount s id xs) (hkey : s'.key? id = s.key? id)
    (hserial : s'.keyIsSerial id = s.keyIsSerial id) : KeyAccount s' id xs where
  edits := h.edits
  added := hkey ▸ h.added
  standing := by rw [hkey, hserial]; exact h.standing
  gone := by rw [hkey]; exact h.gone
  statements := h.statements
  pairs := h.pairs

/-- A change that does not remove the key of the table adds no pair. -/
theorem pairs_concat (h : KeyAccount s id xs) (hx : ∀ name, ¬ x.RemovesKey id name) :
    ∀ front r later name, xs ++ [x] = front ++ r :: later → r.RemovesKey id name →
      ∃ passed a since, front = passed ++ a :: since ∧ a.StandsSince since id name ∧
        (r.before.keyIsSerial id = a.after.keyIsSerial id ↔ Even (Change.turns id since)) := by
  intro front r later name hsplit hr
  rcases append_cons_eq_concat hsplit.symm with ⟨-, rfl, -⟩ | ⟨between, hxs, -⟩
  · exact absurd hr (hx name)
  · exact h.pairs front r between name hxs hr

/-- The key is kept. -/
theorem keep (h : KeyAccount x.before id xs) (hedit : x.id = id → x.edit.keyMark? = none)
    (hss : x.id = id → ∀ statement ∈ x.statements, statement.keyMark? = none)
    (hname : (x.after.key? id).map (·.name) = (x.before.key? id).map (·.name)) :
    KeyAccount x.after id (xs ++ [x]) := by
  obtain ⟨hedits, hstatements⟩ : editMarks id (xs ++ [x]) = editMarks id xs ∧
      statementMarks id (xs ++ [x]) = statementMarks id xs := by
    by_cases hid : x.id = id
    · obtain ⟨hedits, hstatements⟩ := marks_concat_self xs hid
      rw [hedits, hstatements, hedit hid, List.filterMap_eq_nil_iff.mpr (hss hid),
        Option.toList_none, List.append_nil, List.append_nil]
      exact ⟨rfl, rfl⟩
    · exact marks_concat_other hid
  have hsome : (x.after.key? id).isSome = (x.before.key? id).isSome := by
    rw [← Option.isSome_map (f := (·.name)), hname, Option.isSome_map]
  refine ⟨hedits ▸ h.edits, ?_, fun key hkey => ?_, fun hnone heven => ?_, fun heven => ?_, ?_⟩
  · rw [hedits, h.added, hsome]
  · rw [hkey] at hname
    obtain ⟨old, hold, hsame : old.name = key.name⟩ := Option.map_eq_some_iff.mp hname.symm
    obtain ⟨passed, a, since, rfl, hstands, hserial, hends⟩ := h.standing old hold
    refine ⟨passed, a, since ++ [x], by simp, ?_, Change.turns_concat hserial, fun heven => ?_⟩
    · rw [← hsame]
      exact hstands.concat hedit
    · rw [hstatements]
      exact hends heven.of_concat
  · rw [hnone, Option.isSome_none] at hsome
    rw [hstatements]
    exact h.gone (by simpa using hsome.symm) heven.of_concat
  · rw [hstatements]
    exact h.statements heven.of_concat
  · refine h.pairs_concat fun name hr => ?_
    obtain ⟨hid, hremoves⟩ := hr
    have hmark := hedit hid
    rw [hremoves] at hmark
    cases hmark

/-- A key is added where there was none. -/
theorem add {t : LiveTable} {key : IndexShape} (h : KeyAccount x.before id xs) (hid : x.id = id)
    (hedit : x.edit = .constraint (.addPrimaryKey key.name key.columns))
    (hfree : x.before.key? id = none) (hkey : x.after.key? id = some key)
    (hss : x.statements
      = if x.after.keyIsSerial id then [] else [.addPrimaryKey t.name key.name key.columns]) :
    KeyAccount x.after id (xs ++ [x]) := by
  obtain ⟨hedits, hstatements⟩ := marks_concat_self xs hid
  have hlast : endsAdded (editMarks id xs) = false := by rw [h.added, hfree]; rfl
  have hmark : x.edit.keyMark?.toList = [true] := by rw [hedit]; rfl
  rw [hmark] at hedits
  have hends : TurnsEvenly id (xs ++ [x]) → Alternates (statementMarks id (xs ++ [x])) ∧
      endsAdded (statementMarks id (xs ++ [x])) = !x.after.keyIsSerial id := by
    intro heven
    have hbefore := h.gone hfree heven.of_concat
    have halternates := h.statements heven.of_concat
    rw [hstatements, hss]
    cases x.after.keyIsSerial id with
    | true => simpa using ⟨halternates, hbefore⟩
    | false => exact ⟨halternates.concat (by rw [hbefore]; decide), endsAdded_concat⟩
  refine ⟨?_, ?_, fun key' hkey' => ?_, fun hnone => ?_, fun heven => (hends heven).1, ?_⟩
  · rw [hedits]
    exact h.edits.concat (by rw [hlast]; decide)
  · rw [hedits, endsAdded_concat, hkey]
    rfl
  · obtain rfl := Option.some.inj (hkey.symm.trans hkey')
    exact ⟨xs, x, [], rfl, ⟨hid, ⟨key.columns, hedit⟩, List.forall_mem_nil _⟩,
      by simp [Change.turns], fun heven => (hends heven).2⟩
  · cases hkey.symm.trans hnone
  · refine h.pairs_concat fun name hr => ?_
    cases hedit.symm.trans hr.2

/-- The key is removed. -/
theorem remove {t : LiveTable} {key : IndexShape} (h : KeyAccount x.before id xs) (hid : x.id = id)
    (hedit : x.edit = .constraint (.remove .primary key.name))
    (hkey : x.before.key? id = some key) (hfree : x.after.key? id = none)
    (hss : x.statements = if x.before.keyIsSerial id then [] else [.dropPrimaryKey t.name]) :
    KeyAccount x.after id (xs ++ [x]) := by
  obtain ⟨hedits, hstatements⟩ := marks_concat_self xs hid
  obtain ⟨passed, a, since, hsplit, hstands, hserial, hadded⟩ := h.standing key hkey
  have hlast : endsAdded (editMarks id xs) = true := by rw [h.added, hkey]; rfl
  have hmark : x.edit.keyMark?.toList = [false] := by rw [hedit]; rfl
  rw [hmark] at hedits
  have hends : TurnsEvenly id (xs ++ [x]) → Alternates (statementMarks id (xs ++ [x])) ∧
      endsAdded (statementMarks id (xs ++ [x])) = false := by
    intro heven
    -- the key is as it was when it was added
    have hback : x.before.keyIsSerial id = a.after.keyIsSerial id :=
      hserial.mpr (heven passed a since x [] key.name (by rw [hsplit]) hstands ⟨hid, hedit⟩)
    have hbefore := hadded heven.of_concat
    have halternates := h.statements heven.of_concat
    rw [hstatements, hss]
    rw [← hback] at hbefore
    cases hnow : x.before.keyIsSerial id with
    | true =>
      rw [hnow] at hbefore
      simpa using ⟨halternates, hbefore⟩
    | false =>
      rw [hnow] at hbefore
      exact ⟨halternates.concat (by rw [hbefore]; decide), endsAdded_concat⟩
  refine ⟨?_, ?_, fun key' hkey' => ?_, fun _ heven => (hends heven).2,
    fun heven => (hends heven).1, fun front r later name hfront hr => ?_⟩
  · rw [hedits]
    exact h.edits.concat (by rw [hlast]; decide)
  · rw [hedits, endsAdded_concat, hfree]
    rfl
  · cases hfree.symm.trans hkey'
  · rcases append_cons_eq_concat hfront.symm with ⟨rfl, rfl, -⟩ | ⟨between, hxs, -⟩
    · have hsame : key.name = name := by
        have heq := hedit.symm.trans hr.2
        simpa using heq
      exact ⟨passed, a, since, hsplit, hsame ▸ hstands, hserial⟩
    · exact h.pairs front r between name hxs hr

/-- Every change takes the account further. -/
theorem concat (h : KeyAccount x.before id xs) (hx : KeyChange x id) :
    KeyAccount x.after id (xs ++ [x]) := by
  cases hx with
  | add t key hid ht hedit hfree hkey hss => exact h.add hid hedit hfree hkey hss
  | remove t key hid ht hedit hkey hfree hss => exact h.remove hid hedit hkey hfree hss
  | keep hedit hss hname hturn => exact h.keep hedit hss hname

end KeyAccount

/-! ## All along a walk -/

namespace LiveSchema

variable {h : SchemaHistory} {s start : LiveSchema} {versions : List String} {w : Walk}
  {id : String}

theorem key?_start (hs : LiveSchema.start h = .ok start) : start.key? id = none := by
  rw [key?, Option.bind_eq_none_iff]
  intro t ht
  obtain ⟨_, -, name, hblank⟩ := tables_start hs (table?_eq_some ht).1
  rw [hblank]
  rfl

/-- After a walk, every change of a key is accounted for. -/
theorem keyAccount_walk (hs : LiveSchema.start h = .ok start)
    (hw : start.walk ⟨.mysql, h⟩ versions = .ok w) :
    (∀ x ∈ start.changes ⟨.mysql, h⟩ versions, ∀ id, KeyChange x id) ∧
      ∀ id, KeyAccount w.final id (start.changes ⟨.mysql, h⟩ versions) := by
  have hsound := sound_start hs
  have hcreated : ∀ x ∈ start.changes ⟨.mysql, h⟩ versions, x.OnCreated :=
    fun x hx _ hk => (constraint_of_mem_changes hsound hw hx hk).2
  have hstart : start.Sound ∧ ((∀ x ∈ ([] : List Change), x.OnCreated) →
      (∀ x ∈ ([] : List Change), ∀ id, KeyChange x id) ∧ ∀ id, KeyAccount start id []) :=
    ⟨hsound, fun _ => ⟨List.forall_mem_nil _, fun id => .nil (key?_start hs)⟩⟩
  refine (changes_invariant (P := fun s xs => s.Sound ∧ ((∀ x ∈ xs, x.OnCreated) →
      (∀ x ∈ xs, ∀ id, KeyChange x id) ∧ ∀ id, KeyAccount s id xs)) (fun s xs version hinv => ?_)
    (fun version s xs e s' operations hinv he => ?_) hsound hstart hw).2 hcreated
  · refine ⟨hinv.1.takeDue, fun hxs => ⟨(hinv.2 hxs).1, fun id => ?_⟩⟩
    exact ((hinv.2 hxs).2 id).congr key_takeDue.1 key_takeDue.2
  · refine ⟨hinv.1.edit he, fun hxs => ?_⟩
    rw [List.forall_mem_append, List.forall_mem_singleton] at hxs
    obtain ⟨hchanges, haccounts⟩ := hinv.2 hxs.1
    have hchange : ∀ id, KeyChange ⟨s, e.1, e.2, s', operations⟩ id :=
      fun id => keyChange hinv.1 he hxs.2
    rw [List.forall_mem_append, List.forall_mem_singleton]
    exact ⟨⟨hchanges, hchange⟩, fun id => (haccounts id).concat (hchange id)⟩

end LiveSchema

/-- How changes treat primary keys in MySQL. -/
structure KeysPaired (xs : List Change) : Prop where
  /-- An addition is written, unless the key is exactly one serial column. -/
  added : ∀ x ∈ xs, ∀ name columns, x.edit = .constraint (.addPrimaryKey name columns) →
    ∃ t, x.before.table? x.id = some t ∧
      x.statements = if x.after.keyIsSerial x.id then [] else [.addPrimaryKey t.name name columns]
  /-- So is a removal. -/
  removed : ∀ x ∈ xs, ∀ name, x.edit = .constraint (.remove .primary name) →
    ∃ t, x.before.table? x.id = some t ∧
      x.statements = if x.before.keyIsSerial x.id then [] else [.dropPrimaryKey t.name]
  /-- Nothing else adds or drops a primary key. -/
  only : ∀ x ∈ xs, ∀ statement ∈ x.statements, ∀ mark,
    statement.keyMark? = some mark → x.edit.keyMark? = some mark
  /-- A key of one column is turned when a column is put under it, or its column is removed. -/
  turned : ∀ x ∈ xs, ∀ id, (x.id = id → x.edit.keyMark? = none) → x.turnsKey id = true →
    x.id = id ∧ ∃ t column, x.before.table? id = some t ∧ t.KeyedBy column ∧
      (x.edit.placedColumn? = some column ∨ x.edit.removedColumn? = some column)
  /-- The key of a table is added and removed in turn. -/
  edits : ∀ id, Alternates (editMarks id xs)
  /-- A removal is written as the addition was, exactly if the key has been turned evenly since. -/
  paired : ∀ front r later id name, xs = front ++ r :: later → r.RemovesKey id name →
    ∃ passed a since, front = passed ++ a :: since ∧ a.StandsSince since id name ∧
      ((r.statements = [] ↔ a.statements = []) ↔ Even (Change.turns id since))
  /-- Where that is so of all removals, the statements alternate too. -/
  statements : ∀ id, TurnsEvenly id xs → Alternates (statementMarks id xs)

namespace KeyChange

variable {x : Change} {name : String} {columns : List String}

theorem of_add (hx : KeyChange x x.id)
    (hedit : x.edit = .constraint (.addPrimaryKey name columns)) :
    ∃ t, x.before.table? x.id = some t ∧
      x.statements
        = if x.after.keyIsSerial x.id then [] else [.addPrimaryKey t.name name columns] := by
  cases hx with
  | add t key _ ht hedit' _ _ hss =>
    obtain ⟨rfl, rfl⟩ : name = key.name ∧ columns = key.columns := by
      simpa using hedit.symm.trans hedit'
    exact ⟨t, ht, hss⟩
  | remove t key _ ht hedit' => cases hedit.symm.trans hedit'
  | keep hkept =>
    have hmark := hkept rfl
    rw [hedit] at hmark
    cases hmark

theorem of_remove (hx : KeyChange x x.id) (hedit : x.edit = .constraint (.remove .primary name)) :
    ∃ t, x.before.table? x.id = some t ∧
      x.statements = if x.before.keyIsSerial x.id then [] else [.dropPrimaryKey t.name] := by
  cases hx with
  | add t key _ ht hedit' => cases hedit.symm.trans hedit'
  | remove t key _ ht _ _ _ hss => exact ⟨t, ht, hss⟩
  | keep hkept =>
    have hmark := hkept rfl
    rw [hedit] at hmark
    cases hmark

/-- A statement that adds or drops a key is written for an edit that does. -/
theorem mark_of_statement (hx : KeyChange x x.id) {statement : Ddl} {mark : Bool}
    (hin : statement ∈ x.statements) (hmark : statement.keyMark? = some mark) :
    x.edit.keyMark? = some mark := by
  cases hx with
  | add t key _ _ hedit _ _ hss =>
    rw [hss] at hin
    split at hin
    · cases hin
    · rw [hedit, ← hmark, List.mem_singleton.mp hin]
      rfl
  | remove t key _ _ hedit _ _ hss =>
    rw [hss] at hin
    split at hin
    · cases hin
    · rw [hedit, ← hmark, List.mem_singleton.mp hin]
      rfl
  | keep _ hss => cases (hss rfl statement hin).symm.trans hmark

/-- Other changes turn the key of a table only by the column that it consists of. -/
theorem turned {id : String} (hx : KeyChange x id) (hkept : x.id = id → x.edit.keyMark? = none)
    (hturns : x.turnsKey id = true) :
    x.id = id ∧ ∃ t column, x.before.table? id = some t ∧ t.KeyedBy column ∧
      (x.edit.placedColumn? = some column ∨ x.edit.removedColumn? = some column) := by
  cases hx with
  | add t key hid _ hedit =>
    have hmark := hkept hid
    rw [hedit] at hmark
    cases hmark
  | remove t key hid _ hedit =>
    have hmark := hkept hid
    rw [hedit] at hmark
    cases hmark
  | keep _ _ _ hturn => exact hturn hturns

end KeyChange

theorem LiveSchema.keysPaired_walk {h : SchemaHistory} {start : LiveSchema}
    {versions : List String} {w : Walk} (hs : LiveSchema.start h = .ok start)
    (hw : start.walk ⟨.mysql, h⟩ versions = .ok w) :
    KeysPaired (start.changes ⟨.mysql, h⟩ versions) := by
  obtain ⟨hchanges, haccounts⟩ := keyAccount_walk hs hw
  have hempty : ∀ (b : Bool) (statement : Ddl),
      (if b then [] else [statement]) = [] ↔ b = true := by
    intro b statement
    cases b <;> simp
  constructor
  · intro x hx name columns hedit
    exact (hchanges x hx x.id).of_add hedit
  · intro x hx name hedit
    exact (hchanges x hx x.id).of_remove hedit
  · intro x hx statement hin mark hmark
    exact (hchanges x hx x.id).mark_of_statement hin hmark
  · intro x hx id hkept hturns
    exact (hchanges x hx id).turned hkept hturns
  · exact fun id => (haccounts id).edits
  · intro front r later id name hsplit hr
    obtain ⟨passed, a, since, hfront, hstands, hserial⟩ :=
      (haccounts id).pairs front r later name hsplit hr
    refine ⟨passed, a, since, hfront, hstands, ?_⟩
    obtain ⟨rfl, hremoves⟩ := hr
    obtain ⟨hid, ⟨columns, hadds⟩, -⟩ := hstands
    have hrin : r ∈ start.changes ⟨.mysql, h⟩ versions := hsplit ▸ by simp
    have hain : a ∈ start.changes ⟨.mysql, h⟩ versions := hsplit ▸ hfront ▸ by simp
    obtain ⟨_, -, hdrop⟩ := (hchanges r hrin r.id).of_remove hremoves
    obtain ⟨_, -, hadd⟩ := (hchanges a hain a.id).of_add hadds
    rw [hid] at hadd
    rw [hdrop, hadd, hempty, hempty, ← hserial]
    exact Bool.eq_iff_iff.symm
  · exact fun id => (haccounts id).statements

namespace Changelog

variable {h : SchemaHistory} {log : Changelog} {p : Plan}

/-- In MySQL, nothing that is written about enums adds or drops a primary key. -/
theorem keyMark?_enums {es : List EnumHistory} {usesAt : String → List EnumUse}
    {versions : List String} {os : List Operation}
    (hos : EnumRegistry.operationsFrom .mysql es usesAt [] versions = .ok os) :
    ∀ statement ∈ os.flatMap (·.statements), statement.keyMark? = none := by
  intro statement hin
  obtain ⟨o, ho, hin⟩ := List.mem_flatMap.mp hin
  obtain ⟨passed, v, later, -, e, -, part, hpart, ho⟩ :=
    (EnumRegistry.mem_operationsFrom hos).mp ho
  rcases EnumRegistry.operationAt_cases hpart with ⟨rfl, -⟩ | ⟨-, -, description, rfl⟩ |
    ⟨-, -, description, statements, rfl, hgrowth⟩
  · cases ho
  · rw [List.mem_singleton.mp ho] at hin
    cases hin
  · rw [List.mem_singleton.mp ho] at hin
    obtain ⟨u, -, hu⟩ := (Except.mem_of_mapM_ok hgrowth).mp hin
    obtain ⟨_, -, rfl⟩ := Except.map_ok.mp hu
    rfl

/-- In MySQL, the primary keys of tables are added and dropped in turn, by the changes of tables and
by nothing else that the changelog holds the SQL of. -/
theorem mysql_keys_paired (hlog : ofHistory .mysql h = .ok log) :
    ∃ start, ∃ apart : List Ddl, LiveSchema.start h = .ok start ∧
      log.tableEntries.flatMap (fun entry => entry.queries.map (·.query))
        = ((start.changes ⟨.mysql, h⟩ h.timeline).flatMap (·.statements)).map (Ddl.text .mysql) ∧
      List.Forall₂ (Ddl.IsSql .mysql)
        ((start.changes ⟨.mysql, h⟩ h.timeline).flatMap (·.statements))
        (log.tableEntries.flatMap fun entry => entry.queries.map (·.query)) ∧
      (log.enumEntries ++ log.functionEntries).flatMap (fun entry => entry.queries.map (·.query))
        = apart.map (Ddl.text .mysql) ∧
      List.Forall₂ (Ddl.IsSql .mysql) apart
        ((log.enumEntries ++ log.functionEntries).flatMap fun entry =>
          entry.queries.map (·.query)) ∧
      (∀ statement ∈ apart, statement.keyMark? = none) ∧
      KeysPaired (start.changes ⟨.mysql, h⟩ h.timeline) := by
  obtain ⟨start, p, hs, hw, -, henums, hfunctions, rfl⟩ := ofHistory_ok hlog
  have hsome : ∀ os : List Operation,
      (∀ statement ∈ os.flatMap (·.statements), statement.keyMark? = none) →
      ∀ statement ∈ h.timeline.flatMap fun version =>
        (os.filter (·.version == version)).flatMap (·.statements), statement.keyMark? = none := by
    intro os hall statement hin
    obtain ⟨version, -, hin⟩ := List.mem_flatMap.mp hin
    obtain ⟨o, ho, hin⟩ := List.mem_flatMap.mp hin
    exact hall statement (List.mem_flatMap.mpr ⟨o, (List.mem_filter.mp ho).1, hin⟩)
  have htables := map_query_tableEntries hs hw
  have hapart : ((ofPlan ⟨.mysql, h⟩ p).enumEntries
      ++ (ofPlan ⟨.mysql, h⟩ p).functionEntries).flatMap (fun entry => entry.queries.map (·.query))
        = ((h.timeline.flatMap fun version =>
            (p.enums.filter (·.version == version)).flatMap (·.statements))
          ++ h.timeline.flatMap fun version =>
            (p.functions.filter (·.version == version)).flatMap (·.statements)).map
              (Ddl.text .mysql) := by
    rw [List.flatMap_append, List.map_append]
    exact congrArg₂ (· ++ ·) map_query_gather map_query_gather
  refine ⟨start, _, hs, htables, Ddl.forall₂_isSql_iff.mpr htables, hapart,
    Ddl.forall₂_isSql_iff.mpr hapart, ?_, LiveSchema.keysPaired_walk hs hw⟩
  · rw [List.forall_mem_append]
    refine ⟨hsome p.enums (keyMark?_enums (EnumRegistry.operations_ok henums)),
      hsome p.functions fun statement hin => ?_⟩
    rcases statements_functionOperations hfunctions statement hin with ⟨_, rfl⟩ | ⟨_, _, _, _, rfl⟩
    · rfl
    · rfl

/-- A table whose key is one serial column, which is given another type before the key is removed,
and a table that has a serial column beside its key. -/
def turnedKeys : SchemaHistory where
  tables := [
    ⟨"a", [⟨"1", some "a", [.add "id" { type := .serial }], [.addPrimaryKey "a_key" ["id"]], []⟩,
      ⟨"2", none, [.retype "id" { type := .integer }], [], []⟩,
      ⟨"3", none, [], [.remove .primary "a_key"], []⟩]⟩,
    ⟨"b", [⟨"1", some "b", [.add "id" { type := .serial }, .add "code" { type := .integer }],
      [.addPrimaryKey "b_key" ["code"]], []⟩]⟩]

/-- In MySQL a key may be dropped that no statement has added, and one may be added to a table that
has a serial column. -/
theorem mysql_keys_unpaired :
    ∃ log, ofHistory .mysql turnedKeys = .ok log ∧
      log.tableEntries.map (fun entry => (entry.version, entry.queries.map (·.query))) =
        [("1",
          ["CREATE TABLE `a` (\n    `id` INT NOT NULL AUTO_INCREMENT PRIMARY KEY\n)",
            "CREATE TABLE `b` (\n    `id` INT NOT NULL AUTO_INCREMENT PRIMARY KEY,\n"
              ++ "    `code` INT NOT NULL\n)",
            "ALTER TABLE `b` ADD CONSTRAINT `b_key` PRIMARY KEY (`code`)"]),
          ("2", ["ALTER TABLE `a` MODIFY COLUMN `id` INT NOT NULL"]),
          ("3", ["ALTER TABLE `a` DROP PRIMARY KEY"])] :=
  ⟨_, rfl, by decide⟩

/-- The key of the first table has been turned an odd number of times. -/
theorem mysql_keys_paired_turnedKeys :
    ∃ start front r, LiveSchema.start turnedKeys = .ok start ∧
      start.changes ⟨.mysql, turnedKeys⟩ turnedKeys.timeline = front ++ [r] ∧
      r.statements = [.dropPrimaryKey "a"] ∧
      ∃ passed a since, front = passed ++ a :: since ∧ a.StandsSince since "a" "a_key" ∧
        (a.statements ≠ [] ↔ Even (Change.turns "a" since)) := by
  obtain ⟨log, hlog⟩ := Except.exists_of_isOk
    (show (ofHistory .mysql turnedKeys).isOk = true by decide)
  obtain ⟨start, apart, hs, -, -, -, -, -, hkeys⟩ := mysql_keys_paired hlog
  obtain ⟨front, r, hsplit, hr, hdrop⟩ : ∃ front r,
      start.changes ⟨.mysql, turnedKeys⟩ turnedKeys.timeline = front ++ [r] ∧
        r.RemovesKey "a" "a_key" ∧ r.statements = [.dropPrimaryKey "a"] := by
    obtain rfl := Except.ok.inj (hs.symm.trans rfl)
    exact ⟨_, _, (List.dropLast_concat_getLast (List.ne_nil_of_length_pos (by decide))).symm,
      ⟨rfl, rfl⟩, rfl⟩
  refine ⟨start, front, r, hs, hsplit, hdrop, ?_⟩
  obtain ⟨passed, a, since, hfront, hstands, hiff⟩ :=
    hkeys.paired front r [] "a" "a_key" hsplit hr
  refine ⟨passed, a, since, hfront, hstands, ?_⟩
  rw [← hiff, hdrop]
  simp

end Changelog

end SchemaEvolution
