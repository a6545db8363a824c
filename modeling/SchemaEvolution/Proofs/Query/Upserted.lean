import Mathlib.Data.List.Induction
import SchemaEvolution.Proofs.Query.Numbered

/-!
# What an upsert inserts and what it overwrites

An upsert is described by calls in any order, and it says three things: the row that is inserted,
the columns in which the row may conflict with one that is there, and the columns that are then
overwritten. Each of them is read off the calls here: the row has the keys before the other values;
the target is what was named last, or the keys if that is nothing; and what is overwritten is every
value outside the target. The text is told clause by clause, with the number of each parameter, and
each parameter is looked up among the bindings.
-/

namespace SchemaEvolution

/-- Two literals that meet in a text are one. -/
theorem String.append_append_of_eq {a b ab : String} (h : a ++ b = ab) (s : String) :
    a ++ (b ++ s) = ab ++ s := by
  rw [← String.append_assoc, h]

/-! ## Lists of pieces in a text -/

namespace Piece

variable {d : Dialect} {issued : Nat} {ps qs : List Piece}

theorem sql_append : sql d issued (ps ++ qs)
    = sql d issued ps ++ sql d (issued + (values ps).length) qs := by
  simp only [sql_eq_marked, marked_append]

/-- Where each element takes as many parameters as the others, the parameters of an element are
known from its place. -/
theorem sql_commas_map {α : Type} {f : α → List Piece} {n : Nat} {as : List α}
    (h : ∀ a ∈ as, (values (f a)).length = n) :
    sql d issued (commas (as.map f))
      = ", ".intercalate (as.mapIdx fun i a => sql d (issued + n * i) (f a)) := by
  induction as generalizing issued with
  | nil => rfl
  | cons a as ih =>
    obtain ⟨ha, has⟩ := List.forall_mem_cons.mp h
    cases as with
    | nil => simp [commas, String.intercalate_singleton]
    | cons b rest =>
      have hrest : ∀ i, issued + n + n * i = issued + n * (i + 1) := fun i => by
        rw [Nat.mul_add, Nat.mul_one, Nat.add_assoc, Nat.add_comm n]
      rw [List.mapIdx_cons, String.intercalate_cons_of_ne_nil (by simp)]
      rw [List.map_cons, List.map_cons, commas, ← List.map_cons, sql_append, sql, ha, ih has]
      simp only [hrest, Nat.mul_zero, Nat.add_zero, String.append_assoc]

theorem sql_names (ns : List String) : sql d issued (names ns) = d.quoteAll ns := by
  have hquoted : (ns.mapIdx fun i n => sql d (issued + 0 * i) [.name n]) = ns.map d.quote :=
    List.ext_getElem (by simp) fun i _ _ => by simp [sql]
  rw [names, sql_commas_map (n := 0) fun _ _ => rfl, hquoted]
  rfl

/-- A value is found by the parameter of its place. -/
theorem value?_parameter {i : Nat} {v : BoundValue} (h : (values ps)[i]? = some v) :
    (toQuery d issued ps).value? (parameter (issued + i + 1)) = some v := by
  obtain ⟨hi, -⟩ := List.getElem?_eq_some_iff.mp h
  have hvalues : (bindings issued ps).map (·.value) = values ps := map_value_bindings
  rw [← hvalues, List.getElem?_map] at h
  obtain ⟨b, hb, rfl⟩ := Option.map_eq_some_iff.mp h
  have hnames : ((bindings issued ps).map (·.name))[i]? = some (parameter (issued + i + 1)) := by
    rw [map_name_bindings, List.getElem?_map, List.getElem?_range' hi, Nat.one_mul,
      Nat.add_right_comm]
    rfl
  rw [List.getElem?_map, hb] at hnames
  have hname : b.name = parameter (issued + i + 1) := Option.some.inj hnames
  rw [← hname]
  exact BoundQuery.value?_toQuery (List.mem_of_getElem? hb)

end Piece

/-! ## What calls describe -/

namespace Upsert

namespace Call

/-- The key that a call sets, with its value. -/
def key? : Call → Option (String × BoundValue)
  | .key column v => some (column, v)
  | _ => none

/-- The column other than a key that a call sets, with its value. -/
def value? : Call → Option (String × BoundValue)
  | .value column v => some (column, v)
  | _ => none

/-- The columns that a call names for the conflict. -/
def named? : Call → Option (List String)
  | .onConflict columns => some columns
  | _ => none

end Call

/-- The keys that calls set, in order. -/
def keysOf (calls : List Call) : List (String × BoundValue) := calls.filterMap (·.key?)

/-- The other columns that calls set, in order. -/
def valuesOf (calls : List Call) : List (String × BoundValue) := calls.filterMap (·.value?)

/-- The row that calls describe: the keys, then the other columns. -/
def rowOf (calls : List Call) : List (String × BoundValue) := keysOf calls ++ valuesOf calls

/-- The columns that are named for the conflict last. -/
def lastNamed? (calls : List Call) : Option (List String) := (calls.filterMap (·.named?)).getLast?

/-- The target of the conflict: the columns that are named last if there are any, else the keys. -/
def targetOf (calls : List Call) : List String :=
  match lastNamed? calls with
  | some (column :: columns) => column :: columns
  | _ => (keysOf calls).map (·.1)

/-- What is overwritten on a conflict: the columns other than keys that are not in the target. -/
def overwrittenOf (calls : List Call) : List (String × BoundValue) :=
  (valuesOf calls).filter fun v => v.1 ∉ targetOf calls

variable {table : String} {calls : List Call} {d : Dialect}

theorem ofCalls_eq (table : String) (calls : List Call) :
    ofCalls table calls
      = ⟨table, keysOf calls, valuesOf calls, (lastNamed? calls).getD []⟩ := by
  induction calls using List.reverseRecOn with
  | nil => rfl
  | append_singleton calls call ih =>
    have hconcat : ofCalls table (calls ++ [call]) = (ofCalls table calls).apply call :=
      List.foldl_concat ..
    rw [hconcat, ih]
    cases call <;>
      simp [apply, keysOf, valuesOf, lastNamed?, List.filterMap_append, Call.key?, Call.value?,
        Call.named?]

theorem target_ofCalls : (ofCalls table calls).target = targetOf calls := by
  rw [ofCalls_eq, target, targetOf]
  cases lastNamed? calls with
  | none => rfl
  | some columns =>
    cases columns with
    | nil => rfl
    | cons column columns => rfl

theorem updates_ofCalls : (ofCalls table calls).updates = overwrittenOf calls := by
  rw [updates, target_ofCalls, ofCalls_eq, overwrittenOf]
  simp

/-- There is no target when there is no key and nothing is named last. -/
theorem targetOf_eq_nil : targetOf calls = [] ↔
    keysOf calls = [] ∧ ∀ columns, lastNamed? calls = some columns → columns = [] := by
  unfold targetOf
  split
  · next column columns h => simp [h]
  · next h =>
    rw [List.map_eq_nil_iff, iff_self_and]
    intro _ columns hlast
    cases columns with
    | nil => rfl
    | cons column columns => exact absurd hlast (h column columns)

end Upsert

/-! ## What a query says -/

/-- A query that inserts a row and, where it conflicts in the target with one that is there,
overwrites some columns or does nothing. -/
structure BoundQuery.Upserts (q : BoundQuery) (d : Dialect) (table : String)
    (row : List (String × BoundValue)) (target : List String)
    (overwritten : List (String × BoundValue)) : Prop where
  text : q.sql
    = "INSERT INTO " ++ d.quote table ++ " (" ++ d.quoteAll (row.map (·.1)) ++ ") VALUES ("
      ++ ", ".intercalate (row.mapIdx fun i _ => ":" ++ parameter (i + 1))
      ++ ") ON CONFLICT (" ++ d.quoteAll target ++ ")"
      ++ if overwritten = [] then " DO NOTHING"
        else " DO UPDATE SET " ++ ", ".intercalate (overwritten.mapIdx fun i v =>
          d.quote v.1 ++ " = :" ++ parameter (row.length + i + 1))
  /-- The parameter of each column of the row is bound to its value. -/
  inserted : ∀ (i : Nat) column v, row[i]? = some (column, v) →
    q.value? (parameter (i + 1)) = some v
  /-- The parameter of each column that is overwritten is bound to its value once more. -/
  updated : ∀ (i : Nat) column v, overwritten[i]? = some (column, v) →
    q.value? (parameter (row.length + i + 1)) = some v
  /-- Nothing else is bound. -/
  bound : q.bindings.length = row.length + overwritten.length

namespace Upsert

variable {d : Dialect} {u : Upsert}

theorem sql_rowPieces (table : String) (row : List (String × BoundValue)) :
    Piece.sql d 0 (Insert.rowPieces table row)
      = "INSERT INTO " ++ d.quote table ++ " (" ++ d.quoteAll (row.map (·.1)) ++ ") VALUES ("
        ++ ", ".intercalate (row.mapIdx fun i _ => ":" ++ parameter (i + 1)) ++ ")" := by
  have hvalues : ∀ issued, Piece.sql d issued (Piece.commas (row.map fun v => [.value v.2]))
      = ", ".intercalate (row.mapIdx fun i _ => ":" ++ parameter (issued + 1 * i + 1)) := by
    intro issued
    rw [Piece.sql_commas_map (n := 1) fun _ _ => rfl]
    simp only [Piece.sql, String.append_empty]
  simp only [Insert.rowPieces, Piece.sql_append, Piece.sql, Piece.sql_names, hvalues,
    Piece.values_names, List.cons_append, List.nil_append, List.length_nil, Nat.zero_add,
    Nat.one_mul, String.append_assoc, String.append_empty]

theorem sql_conflictPieces (issued : Nat) (updates : List (String × BoundValue)) :
    Piece.sql d issued (conflictPieces updates)
      = if updates = [] then " DO NOTHING"
        else " DO UPDATE SET " ++ ", ".intercalate (updates.mapIdx fun i v =>
          d.quote v.1 ++ " = :" ++ parameter (issued + i + 1)) := by
  unfold conflictPieces
  cases updates with
  | nil => rfl
  | cons v updates =>
    have hmark : ∀ name, " = " ++ (":" ++ name) = " = :" ++ name :=
      String.append_append_of_eq (by decide)
    rw [if_neg (by simp), if_neg (by simp), Piece.sql, Piece.sql_commas_map (n := 1) fun _ _ => rfl]
    simp only [Piece.sql, Nat.one_mul, String.append_empty, String.append_assoc, hmark]

theorem upserts_pieces (u : Upsert) (d : Dialect) :
    (Piece.toQuery d 0 u.pieces).Upserts d u.table (u.keys ++ u.values) u.target u.updates where
  text := by
    have hcount : (Piece.values (Insert.rowPieces u.table (u.keys ++ u.values))).length
        = (u.keys ++ u.values).length := by
      rw [Insert.values_rowPieces, List.length_map]
    have hclose : ∀ rest, ")" ++ (" ON CONFLICT (" ++ rest) = ") ON CONFLICT (" ++ rest :=
      String.append_append_of_eq (by decide)
    rw [Piece.sql_toQuery]
    simp only [pieces, List.append_assoc, Piece.sql_append, sql_rowPieces, hcount, List.cons_append,
      List.nil_append, Piece.sql, Piece.sql_names, Piece.values_names, List.length_nil,
      sql_conflictPieces, Nat.zero_add, Nat.add_zero, String.append_assoc, hclose]
  inserted := fun i column v h => by
    have hvalue : (Piece.values u.pieces)[i]? = some v := by
      obtain ⟨hi, -⟩ := List.getElem?_eq_some_iff.mp h
      rw [values_pieces, constants, List.getElem?_append_left (by simpa using hi),
        List.getElem?_map, h]
      rfl
    have hfound : (Piece.toQuery d 0 u.pieces).value? (parameter (0 + i + 1)) = some v :=
      Piece.value?_parameter hvalue
    simpa using hfound
  updated := fun i column v h => by
    have hvalue : (Piece.values u.pieces)[(u.keys ++ u.values).length + i]? = some v := by
      rw [values_pieces, constants, List.getElem?_append_right (by simp), List.length_map,
        Nat.add_sub_cancel_left, List.getElem?_map, h]
      rfl
    have hfound : (Piece.toQuery d 0 u.pieces).value?
        (parameter (0 + ((u.keys ++ u.values).length + i) + 1)) = some v :=
      Piece.value?_parameter hvalue
    simpa using hfound
  bound := by
    have hvalues : (Piece.bindings 0 u.pieces).map (·.value) = Piece.values u.pieces :=
      Piece.map_value_bindings
    have hbindings : (Piece.bindings 0 u.pieces).length = u.constants.length := by
      rw [← values_pieces, ← hvalues, List.length_map]
    rw [Piece.bindings_toQuery, hbindings, constants, List.length_append, List.length_map,
      List.length_map]

/-- An upsert fails where the dialect has none; else it fails where there is no key and nothing is
named last for the conflict. Everywhere else it is a query that inserts the keys and the other
columns, each in the order of the calls; the target is what is named last, or the keys if that is
nothing; and a conflict overwrites the columns other than keys that are not in the target. -/
theorem toQuery_ofCalls (d : Dialect) (table : String) (calls : List Call) :
    ((ofCalls table calls).toQuery d = .error (.upsertUnsupported d) ↔ d.hasUpsert = false) ∧
    ((ofCalls table calls).toQuery d = .error (.missingConflictKey table) ↔
      d.hasUpsert = true ∧ keysOf calls = [] ∧
        ∀ columns, lastNamed? calls = some columns → columns = []) ∧
    (d.hasUpsert = true →
      (keysOf calls ≠ [] ∨ ∃ columns, lastNamed? calls = some columns ∧ columns ≠ []) →
      ∃ q, (ofCalls table calls).toQuery d = .ok q ∧
        q.Upserts d table (rowOf calls) (targetOf calls) (overwrittenOf calls)) := by
  have htable : (ofCalls table calls).table = table := by rw [ofCalls_eq]
  have hrow : (ofCalls table calls).keys ++ (ofCalls table calls).values = rowOf calls := by
    rw [ofCalls_eq, rowOf]
  have hquery := upserts_pieces (ofCalls table calls) d
  rw [htable, hrow, target_ofCalls, updates_ofCalls] at hquery
  rw [← targetOf_eq_nil, toQuery, target_ofCalls, htable]
  cases hd : d.hasUpsert with
  | false => simp
  | true =>
    cases htarget : targetOf calls with
    | nil =>
      obtain ⟨hkeys, hnamed⟩ := targetOf_eq_nil.mp htarget
      refine ⟨by simp, by simp, fun _ hgiven => ?_⟩
      rcases hgiven with hne | ⟨columns, hlast, hne⟩
      · exact absurd hkeys hne
      · exact absurd (hnamed columns hlast) hne
    | cons column columns => exact ⟨by simp, by simp, fun _ _ => ⟨_, rfl, htarget ▸ hquery⟩⟩

/-- Calls that name a column for the conflict and then take that back, and that set the key once
more as if it were another column. -/
def themeCalls : List Call :=
  [.value "value" (.text "dark"), .onConflict ["value"], .key "name" (.text "theme"),
    .value "name" .null, .onConflict [], .value "since" (.int 3)]

/-- The target is the key, which is inserted twice and not overwritten. -/
theorem toQuery_ofCalls_themeCalls :
    ∃ q, (ofCalls "settings" themeCalls).toQuery .sqlite = .ok q ∧
      q.sql = "INSERT INTO \"settings\" (\"name\", \"value\", \"name\", \"since\")"
        ++ " VALUES (:p1, :p2, :p3, :p4) ON CONFLICT (\"name\")"
        ++ " DO UPDATE SET \"value\" = :p5, \"since\" = :p6" ∧
      q.value? (parameter 2) = some (.text "dark") ∧ q.value? (parameter 5) = some (.text "dark") ∧
      (ofCalls "settings" themeCalls).toQuery .mysql = .error (.upsertUnsupported .mysql) := by
  have hmysql := (toQuery_ofCalls .mysql "settings" themeCalls).1.mpr rfl
  obtain ⟨q, hq, hupserts⟩ :=
    (toQuery_ofCalls .sqlite "settings" themeCalls).2.2 rfl (.inl (by decide))
  refine ⟨q, hq, ?_, hupserts.inserted 1 "value" _ rfl, hupserts.updated 0 "value" _ rfl, hmysql⟩
  rw [hupserts.text]
  -- The digits of a number are found by dividing, which only the kernel follows.
  decide +kernel

end Upsert

end SchemaEvolution
