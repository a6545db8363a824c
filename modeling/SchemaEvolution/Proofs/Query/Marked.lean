import Mathlib.Data.List.Nodup
import SchemaEvolution.Query.Piece

/-!
# Pieces of a query and their text

What a query looks like follows from its pieces alone. A writer goes through them once, and its
text, its bindings and its count of parameters keep step: what it writes is `Piece.sql` with
`Piece.bindings`, and its count grows by the number of values. `Piece.marked` writes the values of a
query as marks of any kind; with the names of the parameters as marks it is the text that is sent,
and with the marks of a dialect it is the text with positional parameters. The parameters are those
that follow the ones issued before, one for each value, and no two of them are alike.
-/

namespace SchemaEvolution

namespace Piece

/-! ## What is written -/

/-- The text of pieces, when `issued` parameters have been used before. -/
def sql (d : Dialect) : Nat → List Piece → String
  | _, [] => ""
  | issued, .text s :: ps => s ++ sql d issued ps
  | issued, .name s :: ps => d.quote s ++ sql d issued ps
  | issued, .value _ :: ps => ":" ++ parameter (issued + 1) ++ sql d (issued + 1) ps

/-- What the parameters of pieces stand for. -/
def bindings : Nat → List Piece → List Binding
  | _, [] => []
  | issued, .text _ :: ps => bindings issued ps
  | issued, .name _ :: ps => bindings issued ps
  | issued, .value v :: ps => ⟨parameter (issued + 1), v⟩ :: bindings (issued + 1) ps

/-- The values among pieces. -/
def values (ps : List Piece) : List BoundValue :=
  ps.filterMap fun
    | .value v => some v
    | _ => none

end Piece

open Piece in
/-- A writer goes on behind what it has written, and takes a parameter for each value. -/
theorem Writer.writeAll_eq {d : Dialect} (w : Writer) (ps : List Piece) :
    w.writeAll d ps = ⟨w.issued + (values ps).length,
      ⟨w.query.sql ++ sql d w.issued ps, w.query.bindings ++ bindings w.issued ps⟩⟩ := by
  induction ps generalizing w with
  | nil => simp [writeAll, sql, bindings, values]
  | cons p ps ih =>
    have hstep : w.writeAll d (p :: ps) = (w.write d p).writeAll d ps := rfl
    cases p with
    | text s => simp [hstep, ih, write, sql, bindings, values, String.append_assoc]
    | name s => simp [hstep, ih, write, sql, bindings, values, String.append_assoc]
    | value v =>
      simp [hstep, ih, write, nextParameter, sql, bindings, values, String.append_assoc,
        Nat.add_assoc, Nat.add_comm]

namespace Piece

variable {d : Dialect} {mark : Nat → String} {issued : Nat} {ps qs : List Piece}

theorem writeAll_start :
    (Writer.start issued).writeAll d ps = ⟨issued + (values ps).length, toQuery d issued ps⟩ := by
  rw [toQuery, Writer.writeAll_eq]
  rfl

@[simp] theorem sql_toQuery : (toQuery d issued ps).sql = sql d issued ps := by
  rw [toQuery, Writer.writeAll_eq]
  exact String.empty_append

@[simp] theorem bindings_toQuery : (toQuery d issued ps).bindings = bindings issued ps := by
  rw [toQuery, Writer.writeAll_eq]
  exact List.nil_append _

/-! ## Marks in the place of values -/

/-- The text of pieces with a mark for each value; `position` values have been marked before. -/
def marked (d : Dialect) (mark : Nat → String) : Nat → List Piece → String
  | _, [] => ""
  | position, .text s :: ps => s ++ marked d mark position ps
  | position, .name s :: ps => d.quote s ++ marked d mark position ps
  | position, .value _ :: ps => mark (position + 1) ++ marked d mark (position + 1) ps

/-- A query as it is sent names the parameters. -/
theorem sql_eq_marked : sql d issued ps = marked d (fun n => ":" ++ parameter n) issued ps := by
  induction ps generalizing issued with
  | nil => rfl
  | cons p ps ih => cases p <;> simp only [sql, marked, ih]

theorem marked_append :
    marked d mark issued (ps ++ qs)
      = marked d mark issued ps ++ marked d mark (issued + (values ps).length) qs := by
  induction ps generalizing issued with
  | nil => simp [marked, values]
  | cons p ps ih =>
    cases p with
    | text s => simp only [List.cons_append, marked, ih, String.append_assoc]; rfl
    | name s => simp only [List.cons_append, marked, ih, String.append_assoc]; rfl
    | value v =>
      have hcount : (values (.value v :: ps)).length = (values ps).length + 1 := rfl
      simp only [List.cons_append, marked, ih, String.append_assoc, hcount]
      rw [show issued + 1 + (values ps).length = issued + ((values ps).length + 1) by omega]

theorem bindings_append :
    bindings issued (ps ++ qs)
      = bindings issued ps ++ bindings (issued + (values ps).length) qs := by
  induction ps generalizing issued with
  | nil => rfl
  | cons p ps ih =>
    cases p with
    | text s => exact ih
    | name s => exact ih
    | value v =>
      have hcount : (values (.value v :: ps)).length = (values ps).length + 1 := rfl
      simp only [List.cons_append, bindings, ih, hcount]
      rw [show issued + 1 + (values ps).length = issued + ((values ps).length + 1) by omega]

theorem map_value_bindings : (bindings issued ps).map (·.value) = values ps := by
  induction ps generalizing issued with
  | nil => rfl
  | cons p ps ih =>
    cases p with
    | text s => exact ih
    | name s => exact ih
    | value v => exact congrArg (v :: ·) ih

/-- Parameters are counted on, in the order of the values. -/
theorem map_name_bindings : (bindings issued ps).map (·.name)
    = (List.range' (issued + 1) (values ps).length).map parameter := by
  induction ps generalizing issued with
  | nil => rfl
  | cons p ps ih =>
    cases p with
    | text s => exact ih
    | name s => exact ih
    | value v =>
      have hcount : (values (.value v :: ps)).length = (values ps).length + 1 := rfl
      rw [bindings, List.map_cons, ih, hcount, List.range'_succ]
      rfl

theorem parameter_inj {m n : Nat} (h : parameter m = parameter n) : m = n :=
  Text.Decimal.string_inj ((String.append_right_inj _).mp h)

/-- Two values are never bound to one parameter. -/
theorem nodup_parameters : ((bindings issued ps).map (·.name)).Nodup := by
  rw [map_name_bindings]
  exact List.Nodup.map (fun _ _ => parameter_inj) List.nodup_range'

end Piece

/-- An expression is sent as its pieces. -/
theorem Expr.toQuery_eq {d : Dialect} {issued : Nat} {e : Expr} :
    e.toQuery d issued = Piece.toQuery d issued e.pieces := rfl

end SchemaEvolution
