import SchemaEvolution.Proofs.Query.Unambiguous

/-!
# Values stay apart from the text

What is sent as text does not depend on the values that are bound. Two statements that are built by
the same calls, on the same names and with expressions of the same shape, have one text and one list
of parameters, or they are refused for one reason: whatever the values are, only the bindings know.

`blank` puts `NULL` for every value, in expressions, in calls and in statements. It commutes with
building a statement and with taking it apart into pieces, and pieces are written as their blanks.
-/

namespace SchemaEvolution

/-! ## Queries that differ in values only -/

/-- Two queries with one text and one list of parameters. -/
structure BoundQuery.SameText (q r : BoundQuery) : Prop where
  sql : q.sql = r.sql
  names : q.bindings.map (·.name) = r.bindings.map (·.name)

/-- Two outcomes with one text and one list of parameters, or with one fault. -/
inductive SameOutcome : Except QueryFault BoundQuery → Except QueryFault BoundQuery → Prop
  | query {q r : BoundQuery} (h : q.SameText r) : SameOutcome (.ok q) (.ok r)
  | fault (f : QueryFault) : SameOutcome (.error f) (.error f)

namespace Piece

variable {d : Dialect} {issued : Nat} {ps qs : List Piece}

theorem map_name_bindings_map_blank :
    (bindings issued (ps.map blank)).map (·.name) = (bindings issued ps).map (·.name) := by
  induction ps generalizing issued with
  | nil => rfl
  | cons p ps ih =>
    cases p with
    | text s => exact ih
    | name s => exact ih
    | value v => exact congrArg (parameter (issued + 1) :: ·) ih

theorem sameText_toQuery (h : ps.map blank = qs.map blank) :
    (toQuery d issued ps).SameText (toQuery d issued qs) where
  sql := by rw [sql_toQuery, sql_toQuery, ← sql_map_blank, h, sql_map_blank]
  names := by
    rw [bindings_toQuery, bindings_toQuery, ← map_name_bindings_map_blank, h,
      map_name_bindings_map_blank]

theorem map_blank_commas (pss : List (List Piece)) :
    (commas pss).map blank = commas (pss.map (List.map blank)) := by
  induction pss with
  | nil => rfl
  | cons ps pss ih =>
    cases pss with
    | nil => rfl
    | cons qs rest =>
      rw [commas, List.map_append, List.map_cons, ih]
      rfl

theorem map_blank_commas_map {α : Type} {f g : α → List Piece} {as : List α}
    (h : ∀ a, (f a).map blank = g a) : (commas (as.map f)).map blank = commas (as.map g) := by
  rw [map_blank_commas, List.map_map]
  exact congrArg commas (List.map_congr_left fun a _ => h a)

theorem map_blank_names (ns : List String) : (names ns).map blank = names ns :=
  map_blank_commas_map fun _ => rfl

theorem map_blank_clause (keyword : String) (e : Option Expr) :
    (clause keyword e).map blank = clause keyword (e.map Expr.blank) := by
  cases e with
  | none => rfl
  | some e => simp only [clause, Option.map_some, List.map_cons, e.pieces_blank, blank]

end Piece

open Piece

/-! ## Selections -/

namespace Select

/-- A call without the values that it binds. -/
def Call.blank : Call → Call
  | .columns es => .columns (es.map Expr.blank)
  | .filter e => .filter e.blank
  | .having e => .having e.blank
  | .orderBy e order => .orderBy e.blank order
  | c => c

/-- A selection without the values that it binds. -/
def blank (s : Select) : Select :=
  { s with
    columns := s.columns.map Expr.blank
    filter := s.filter.map Expr.blank
    having := s.having.map Expr.blank
    orderBy := s.orderBy.map fun o => (o.1.blank, o.2) }

theorem blank_apply (s : Select) (c : Call) : (s.apply c).blank = s.blank.apply c.blank := by
  cases c <;> simp [apply, blank, Call.blank]

theorem blank_ofCalls (table : String) (cs : List Call) :
    (ofCalls table cs).blank = ofCalls table (cs.map (·.blank)) := by
  rw [ofCalls, ofCalls, List.foldl_map]
  exact (List.foldl_hom blank fun s c => (blank_apply s c).symm).symm

theorem map_blank_joinPieces (j : Join) : (joinPieces j).map Piece.blank = joinPieces j := by
  simp only [joinPieces, List.map_append, List.map_cons, List.map_nil, Expr.map_blank_path,
    Piece.blank]

theorem map_blank_listPieces (keyword : String) (pss : List (List Piece)) :
    (listPieces keyword pss).map Piece.blank
      = listPieces keyword (pss.map (List.map Piece.blank)) := by
  cases pss with
  | nil => rfl
  | cons ps pss =>
    rw [listPieces, List.map_cons, map_blank_commas]
    · rfl
    · simp

theorem map_blank_countPieces (keyword : String) (n : Option Nat) :
    (countPieces keyword n).map Piece.blank = countPieces keyword n := by
  cases n <;> rfl

theorem pieces_blank (s : Select) : s.blank.pieces = s.pieces.map Piece.blank := by
  have hdistinct : (if s.distinct then [.text "DISTINCT "] else []).map Piece.blank
      = if s.distinct then [.text "DISTINCT "] else [] := by
    split <;> rfl
  have hcolumns : (if s.columns.isEmpty then [.text "*"]
        else commas (s.columns.map Expr.pieces)).map Piece.blank
      = if (s.columns.map Expr.blank).isEmpty then [.text "*"]
        else commas ((s.columns.map Expr.blank).map Expr.pieces) := by
    rw [List.isEmpty_map]
    split
    · rfl
    · rw [List.map_map]
      exact map_blank_commas_map fun e => e.pieces_blank.symm
  have hjoins : (s.joins.flatMap joinPieces).map Piece.blank = s.joins.flatMap joinPieces := by
    rw [List.map_flatMap]
    exact List.flatMap_congr fun j _ => map_blank_joinPieces j
  have hgroups : (s.groupBy.map ColumnPath.pieces).map (List.map Piece.blank)
      = s.groupBy.map ColumnPath.pieces := by
    rw [List.map_map]
    exact List.map_congr_left fun c _ => Expr.map_blank_path c
  have horder : (s.orderBy.map orderPieces).map (List.map Piece.blank)
      = (s.orderBy.map fun o => (o.1.blank, o.2)).map orderPieces := by
    rw [List.map_map, List.map_map]
    refine List.map_congr_left fun o _ => ?_
    simp [orderPieces, o.1.pieces_blank, Piece.blank]
  simp only [pieces, blank, List.map_append, List.map_cons, List.map_nil, Piece.blank, hdistinct,
    hcolumns, hjoins, hgroups, horder, map_blank_clause, map_blank_listPieces,
    map_blank_countPieces]
  rfl

theorem sameText {s t : Select} (d : Dialect) (h : s.blank = t.blank) :
    (s.toQuery d).SameText (t.toQuery d) :=
  Piece.sameText_toQuery (by rw [← pieces_blank, h, pieces_blank])

end Select

/-! ## Insertions, updates and deletions -/

/-- Columns with `NULL` for their values. -/
def blankRow (row : List (String × BoundValue)) : List (String × BoundValue) :=
  row.map fun v => (v.1, .null)

theorem map_fst_blankRow (row : List (String × BoundValue)) :
    (blankRow row).map (·.1) = row.map (·.1) := by
  rw [blankRow, List.map_map]
  rfl

namespace Insert

/-- A call without the value that it binds. -/
def Call.blank : Call → Call
  | .value column _ => .value column .null
  | c => c

/-- An insertion without the values that it binds. -/
def blank (i : Insert) : Insert := { i with values := blankRow i.values }

theorem blank_apply (i : Insert) (c : Call) : (i.apply c).blank = i.blank.apply c.blank := by
  cases c <;> simp [apply, blank, blankRow, Call.blank, withValue, withReturning]

theorem blank_ofCalls (table : String) (cs : List Call) :
    (ofCalls table cs).blank = ofCalls table (cs.map (·.blank)) := by
  rw [ofCalls, ofCalls, List.foldl_map]
  exact (List.foldl_hom blank fun s c => (blank_apply s c).symm).symm

theorem map_blank_rowPieces (table : String) (row : List (String × BoundValue)) :
    (rowPieces table row).map Piece.blank = rowPieces table (blankRow row) := by
  have hvalues : (commas (row.map fun v => [Piece.value v.2])).map Piece.blank
      = commas ((blankRow row).map fun v => [Piece.value v.2]) := by
    rw [blankRow, List.map_map]
    exact map_blank_commas_map fun _ => rfl
  simp only [rowPieces, List.map_append, List.map_cons, List.map_nil, map_blank_names,
    map_fst_blankRow, hvalues, Piece.blank]

theorem map_blank_returningPieces (d : Dialect) (column : Option String) :
    (returningPieces d column).map Piece.blank = returningPieces d column := by
  unfold returningPieces
  split
  · rfl
  · next clause h =>
    obtain ⟨name, -, hclause⟩ := Option.bind_eq_some_iff.mp h
    unfold generatedKeyClause? at hclause
    split at hclause
    · obtain rfl := Option.some.inj hclause
      rfl
    · cases hclause

theorem pieces_blank (i : Insert) (d : Dialect) :
    i.blank.pieces d = (i.pieces d).map Piece.blank := by
  rw [pieces, pieces, List.map_append, map_blank_rowPieces, map_blank_returningPieces]
  rfl

theorem sameText {i j : Insert} (d : Dialect) (h : i.blank = j.blank) :
    (i.toQuery d).SameText (j.toQuery d) :=
  Piece.sameText_toQuery (by rw [← pieces_blank, h, pieces_blank])

end Insert

namespace Update

/-- A call without the values that it binds. -/
def Call.blank : Call → Call
  | .value column _ => .value column .null
  | .expression column e => .expression column e.blank
  | .filter e => .filter e.blank

/-- An update without the values that it binds. -/
def blank (u : Update) : Update :=
  { u with
    assignments := u.assignments.map fun a => (a.1, a.2.blank)
    filter := u.filter.map Expr.blank }

theorem blank_apply (u : Update) (c : Call) : (u.apply c).blank = u.blank.apply c.blank := by
  cases c <;> simp [apply, blank, Call.blank, assign, assignValue, Expr.blank]

theorem blank_ofCalls (table : String) (cs : List Call) :
    (ofCalls table cs).blank = ofCalls table (cs.map (·.blank)) := by
  rw [ofCalls, ofCalls, List.foldl_map]
  exact (List.foldl_hom blank fun s c => (blank_apply s c).symm).symm

theorem pieces_blank (u : Update) : u.blank.pieces = u.pieces.map Piece.blank := by
  have hassignments : (commas (u.assignments.map assignmentPieces)).map Piece.blank
      = commas ((u.assignments.map fun a => (a.1, a.2.blank)).map assignmentPieces) := by
    rw [List.map_map]
    refine map_blank_commas_map fun a => ?_
    simp [assignmentPieces, a.2.pieces_blank, Piece.blank]
  simp only [pieces, blank, List.map_append, List.map_cons, List.map_nil, Piece.blank,
    hassignments, map_blank_clause]

theorem sameText {u v : Update} (d : Dialect) (h : u.blank = v.blank) :
    (u.toQuery d).SameText (v.toQuery d) :=
  Piece.sameText_toQuery (by rw [← pieces_blank, h, pieces_blank])

end Update

namespace Delete

/-- A deletion without the values that it binds. -/
def blank (q : Delete) : Delete := { q with filter := q.filter.map Expr.blank }

theorem blank_ofFilters (table : String) (es : List Expr) :
    (ofFilters table es).blank = ofFilters table (es.map (·.blank)) := by
  rw [ofFilters, ofFilters, List.foldl_map]
  exact (List.foldl_hom blank fun _ _ => rfl).symm

theorem pieces_blank (q : Delete) : q.blank.pieces = q.pieces.map Piece.blank := by
  simp only [pieces, blank, List.map_append, List.map_cons, List.map_nil, Piece.blank,
    map_blank_clause]

theorem sameText {q r : Delete} (d : Dialect) (h : q.blank = r.blank) :
    (q.toQuery d).SameText (r.toQuery d) :=
  Piece.sameText_toQuery (by rw [← pieces_blank, h, pieces_blank])

end Delete

/-! ## Upserts -/

namespace Upsert

/-- A call without the value that it binds. -/
def Call.blank : Call → Call
  | .key column _ => .key column .null
  | .value column _ => .value column .null
  | c => c

/-- An upsert without the values that it binds. -/
def blank (u : Upsert) : Upsert := { u with keys := blankRow u.keys, values := blankRow u.values }

theorem blank_apply (u : Upsert) (c : Call) : (u.apply c).blank = u.blank.apply c.blank := by
  cases c <;> simp [apply, blank, blankRow, Call.blank]

theorem blank_ofCalls (table : String) (cs : List Call) :
    (ofCalls table cs).blank = ofCalls table (cs.map (·.blank)) := by
  rw [ofCalls, ofCalls, List.foldl_map]
  exact (List.foldl_hom blank fun s c => (blank_apply s c).symm).symm

theorem target_blank (u : Upsert) : u.blank.target = u.target := by
  have hkeys : u.blank.keys.map (·.1) = u.keys.map (·.1) := map_fst_blankRow u.keys
  rw [target, target, hkeys]
  rfl

theorem updates_blank (u : Upsert) : u.blank.updates = blankRow u.updates := by
  rw [updates, updates, target_blank, blankRow]
  exact List.filter_map

theorem map_blank_conflictPieces (updates : List (String × BoundValue)) :
    (conflictPieces updates).map Piece.blank = conflictPieces (blankRow updates) := by
  have hempty : (blankRow updates).isEmpty = updates.isEmpty := List.isEmpty_map
  unfold conflictPieces
  rw [hempty]
  split
  · rfl
  · rw [List.map_cons, blankRow, List.map_map]
    exact congrArg (Piece.text " DO UPDATE SET " :: ·) (map_blank_commas_map fun _ => rfl)

theorem pieces_blank (u : Upsert) : u.blank.pieces = u.pieces.map Piece.blank := by
  have hrow : blankRow u.keys ++ blankRow u.values = blankRow (u.keys ++ u.values) := by
    simp [blankRow]
  have hblank : u.blank.keys ++ u.blank.values = blankRow (u.keys ++ u.values) := hrow
  simp only [pieces, List.map_append, List.map_cons, List.map_nil, Piece.blank, hblank,
    target_blank, updates_blank, Insert.map_blank_rowPieces, map_blank_names,
    map_blank_conflictPieces]
  rfl

theorem sameOutcome {u v : Upsert} (d : Dialect) (h : u.blank = v.blank) :
    SameOutcome (u.toQuery d) (v.toQuery d) := by
  have htarget : u.target = v.target := by rw [← target_blank, h, target_blank]
  have htable : u.table = v.table := by
    show u.blank.table = v.blank.table
    rw [h]
  have hpieces : u.pieces.map Piece.blank = v.pieces.map Piece.blank := by
    rw [← pieces_blank, h, pieces_blank]
  unfold toQuery
  rw [htarget, htable]
  split
  · exact .fault _
  · split
    · exact .fault _
    · exact .query (Piece.sameText_toQuery hpieces)

end Upsert

/-! ## Everything that is sent -/

/-- Expressions that are the same but for their constants are written alike, whatever parameters are
in use; and so are statements of each kind that are built by the same calls but for the values in
them. For upserts that is so whether or not there is a statement. -/
theorem text_apart_from_values (d : Dialect) :
    (∀ (issued : Nat) (a b : Expr), a.blank = b.blank →
      (a.toQuery d issued).SameText (b.toQuery d issued)) ∧
    (∀ (table : String) (as bs : List Select.Call), as.map (·.blank) = bs.map (·.blank) →
      ((Select.ofCalls table as).toQuery d).SameText ((Select.ofCalls table bs).toQuery d)) ∧
    (∀ (table : String) (as bs : List Insert.Call), as.map (·.blank) = bs.map (·.blank) →
      ((Insert.ofCalls table as).toQuery d).SameText ((Insert.ofCalls table bs).toQuery d)) ∧
    (∀ (table : String) (as bs : List Update.Call), as.map (·.blank) = bs.map (·.blank) →
      ((Update.ofCalls table as).toQuery d).SameText ((Update.ofCalls table bs).toQuery d)) ∧
    (∀ (table : String) (as bs : List Expr), as.map (·.blank) = bs.map (·.blank) →
      ((Delete.ofFilters table as).toQuery d).SameText ((Delete.ofFilters table bs).toQuery d)) ∧
    (∀ (table : String) (as bs : List Upsert.Call), as.map (·.blank) = bs.map (·.blank) →
      SameOutcome ((Upsert.ofCalls table as).toQuery d) ((Upsert.ofCalls table bs).toQuery d)) := by
  refine ⟨fun issued a b h => ?_, fun table as bs h => ?_, fun table as bs h => ?_,
    fun table as bs h => ?_, fun table as bs h => ?_, fun table as bs h => ?_⟩
  · exact Piece.sameText_toQuery (by rw [← a.pieces_blank, h, b.pieces_blank])
  · exact Select.sameText d (by rw [Select.blank_ofCalls, h, Select.blank_ofCalls])
  · exact Insert.sameText d (by rw [Insert.blank_ofCalls, h, Insert.blank_ofCalls])
  · exact Update.sameText d (by rw [Update.blank_ofCalls, h, Update.blank_ofCalls])
  · exact Delete.sameText d (by rw [Delete.blank_ofFilters, h, Delete.blank_ofFilters])
  · exact Upsert.sameOutcome d (by rw [Upsert.blank_ofCalls, h, Upsert.blank_ofCalls])

/-- A comparison of a name with a value. -/
def nameIs (v : BoundValue) : Expr := .compare (.column ⟨none, "name"⟩) .eq (.constant v)

/-- A text that would end a statement and begin another one if it became part of it. -/
def injection : BoundValue := .text "x'; DROP TABLE users; --"

/-- With a hostile text for its value, each kind of statement is what it is with none. -/
theorem text_apart_from_values_injection :
    ((nameIs injection).toQuery .sqlite 3).SameText ((nameIs .null).toQuery .sqlite 3) ∧
    ((Select.ofCalls "users" [.filter (nameIs injection)]).toQuery .sqlite).SameText
      ((Select.ofCalls "users" [.filter (nameIs .null)]).toQuery .sqlite) ∧
    ((Insert.ofCalls "users" [.value "name" injection]).toQuery .sqlite).SameText
      ((Insert.ofCalls "users" [.value "name" .null]).toQuery .sqlite) ∧
    ((Update.ofCalls "users" [.value "name" injection]).toQuery .sqlite).SameText
      ((Update.ofCalls "users" [.value "name" .null]).toQuery .sqlite) ∧
    ((Delete.ofFilters "users" [nameIs injection]).toQuery .sqlite).SameText
      ((Delete.ofFilters "users" [nameIs .null]).toQuery .sqlite) ∧
    SameOutcome ((Upsert.ofCalls "users" [.key "name" injection]).toQuery .sqlite)
      ((Upsert.ofCalls "users" [.key "name" .null]).toQuery .sqlite) := by
  obtain ⟨hexpr, hselect, hinsert, hupdate, hdelete, hupsert⟩ := text_apart_from_values .sqlite
  exact ⟨hexpr 3 _ _ rfl, hselect "users" _ _ rfl, hinsert "users" _ _ rfl,
    hupdate "users" _ _ rfl, hdelete "users" _ _ rfl, hupsert "users" _ _ rfl⟩

end SchemaEvolution
