import SchemaEvolution.Proofs.Query.Positional

/-!
# Parameters follow the constants

The values that a query binds are the constants that it is made from, in the order in which they
are written down. A test against the empty set is decided without the value that is tested, so the
constants of that value are left out; no others are.

A writer takes the next parameter for each value among the pieces of a query, so its count grows by
the number of constants. In the text the parameters are found by what they look like, a colon and a
word outside quoted names.
-/

namespace SchemaEvolution

/-! ## Constants -/

namespace Expr

mutual

/-- The constants of an expression from left to right, but for those in a value that is tested
against the empty set. -/
def constants : Expr → List BoundValue
  | .column _ => []
  | .constant v => [v]
  | .aggregate _ _ => []
  | .math l _ r => l.constants ++ r.constants
  | .compare l _ r => l.constants ++ r.constants
  | .between v low high => v.constants ++ low.constants ++ high.constants
  | .inSet _ [] _ => []
  | .inSet v (e :: rest) _ => v.constants ++ constantsAll (e :: rest)
  | .all parts => constantsAll parts
  | .any parts => constantsAll parts
  | .not e => e.constants

/-- The constants of expressions that are written one after another. -/
def constantsAll : List Expr → List BoundValue
  | [] => []
  | e :: rest => e.constants ++ constantsAll rest

end

end Expr

/-- The constants of a selection: what is selected, the filters, and what rows are sorted by. -/
def Select.constants (s : Select) : List BoundValue :=
  s.columns.flatMap Expr.constants ++ s.filter.toList.flatMap Expr.constants
    ++ s.having.toList.flatMap Expr.constants ++ s.orderBy.flatMap fun o => o.1.constants

/-- The constants of an insertion are its values. -/
def Insert.constants (i : Insert) : List BoundValue := i.values.map (·.2)

/-- The constants of an update: those that are assigned, then those of the filter. -/
def Update.constants (u : Update) : List BoundValue :=
  (u.assignments.flatMap fun a => a.2.constants) ++ u.filter.toList.flatMap Expr.constants

/-- The constants of a deletion are those of its filter. -/
def Delete.constants (q : Delete) : List BoundValue := q.filter.toList.flatMap Expr.constants

/-- The constants of an upsert: the row, and once more the values that a conflict updates. -/
def Upsert.constants (u : Upsert) : List BoundValue :=
  (u.keys ++ u.values).map (·.2) ++ u.updates.map (·.2)

/-! ## The values among pieces -/

namespace Piece

variable {ps qs : List Piece}

@[simp] theorem values_nil : values [] = [] := rfl

@[simp] theorem values_text {s : String} : values (.text s :: ps) = values ps := rfl

@[simp] theorem values_name {s : String} : values (.name s :: ps) = values ps := rfl

@[simp] theorem values_value {v : BoundValue} : values (.value v :: ps) = v :: values ps := rfl

@[simp] theorem values_append : values (ps ++ qs) = values ps ++ values qs :=
  List.filterMap_append

@[simp] theorem values_parenthesized : values (parenthesized ps) = values ps := by
  simp [parenthesized]

@[simp] theorem values_commas (pss : List (List Piece)) :
    values (commas pss) = pss.flatMap values := by
  induction pss with
  | nil => rfl
  | cons ps pss ih =>
    cases pss with
    | nil => simp [commas]
    | cons qs rest =>
      rw [commas, values_append, values_text, ih, ← List.flatMap_cons (f := values)]

@[simp] theorem values_names (ns : List String) : values (names ns) = [] := by
  rw [names, values_commas, List.flatMap_map]
  exact List.flatMap_eq_nil_iff.mpr fun _ _ => rfl

@[simp] theorem values_flatMap {α : Type} (f : α → List Piece) (as : List α) :
    values (as.flatMap f) = as.flatMap fun a => values (f a) := by
  induction as with
  | nil => rfl
  | cons a as ih => rw [List.flatMap_cons, values_append, ih, List.flatMap_cons]

end Piece

open Piece

@[simp] theorem ColumnPath.values_pieces (c : ColumnPath) : values c.pieces = [] := by
  unfold ColumnPath.pieces
  split <;> rfl

namespace Expr

@[simp] theorem values_asOperand (e : Expr) (ps : List Piece) :
    values (asOperand e ps) = values ps := by
  unfold asOperand
  split
  · rfl
  · exact values_parenthesized

mutual

theorem values_pieces : (e : Expr) → values e.pieces = e.constants
  | .column c => c.values_pieces
  | .constant _ => rfl
  | .aggregate _ none => rfl
  | .aggregate _ (some c) => by simp [pieces, constants]
  | .math l _ r => by simp [pieces, constants, values_pieces l, values_pieces r]
  | .compare l _ r => by simp [pieces, constants, values_pieces l, values_pieces r]
  | .between v low high => by
    simp [pieces, constants, values_pieces v, values_pieces low, values_pieces high]
  | .inSet _ [] _ => by simp [pieces, constants]
  | .inSet v [e] _ => by
    simp [pieces, constants, constantsAll, values_pieces v, values_pieces e]
  | .inSet v (e :: f :: rest) _ => by
    have hrest := values_furtherOperands (f :: rest)
    simp [pieces, constants, constantsAll, values_pieces v, values_pieces e, hrest]
  | .all [] => rfl
  | .all (e :: rest) => by
    simp [pieces, constants, constantsAll, values_pieces e, values_furtherParts]
  | .any [] => rfl
  | .any (e :: rest) => by
    simp [pieces, constants, constantsAll, values_pieces e, values_furtherParts]
  | .not e => by simp [pieces, constants, values_pieces e]

theorem values_furtherOperands : (es : List Expr) →
    values (furtherOperands es) = constantsAll es
  | [] => rfl
  | e :: rest => by
    simp [furtherOperands, constantsAll, values_pieces e, values_furtherOperands rest]

theorem values_furtherParts (separator : String) : (es : List Expr) →
    values (furtherParts separator es) = constantsAll es
  | [] => rfl
  | e :: rest => by
    simp [furtherParts, constantsAll, values_pieces e, values_furtherParts separator rest]

end

end Expr

theorem Piece.values_clause (keyword : String) (e : Option Expr) :
    values (clause keyword e) = e.toList.flatMap Expr.constants := by
  cases e with
  | none => rfl
  | some e => simp [clause, e.values_pieces]

namespace Select

theorem values_listPieces (keyword : String) (pss : List (List Piece)) :
    values (listPieces keyword pss) = pss.flatMap values := by
  unfold listPieces
  split
  · rfl
  · rw [values_text, values_commas]

theorem values_countPieces (keyword : String) (n : Option Nat) :
    values (countPieces keyword n) = [] := by
  cases n <;> rfl

theorem values_pieces (s : Select) : values s.pieces = s.constants := by
  have hdistinct : values (if s.distinct then [.text "DISTINCT "] else []) = [] := by
    split <;> rfl
  have hcolumns : values (if s.columns.isEmpty then [.text "*"]
      else commas (s.columns.map Expr.pieces)) = s.columns.flatMap Expr.constants := by
    split
    · next h => rw [List.isEmpty_iff.mp h]; rfl
    · simp only [values_commas, List.flatMap_map, Expr.values_pieces]
  have hjoins : values (s.joins.flatMap joinPieces) = [] := by
    rw [values_flatMap]
    exact List.flatMap_eq_nil_iff.mpr fun j _ => by simp [joinPieces]
  have hgroups : values (listPieces " GROUP BY " (s.groupBy.map ColumnPath.pieces)) = [] := by
    rw [values_listPieces, List.flatMap_map]
    exact List.flatMap_eq_nil_iff.mpr fun c _ => c.values_pieces
  have horder : values (listPieces " ORDER BY " (s.orderBy.map orderPieces))
      = s.orderBy.flatMap fun o => o.1.constants := by
    rw [values_listPieces, List.flatMap_map]
    simp only [orderPieces, values_append, values_text, values_nil, List.append_nil,
      Expr.values_pieces]
  simp only [pieces, values_append, values_text, values_name, values_nil, List.cons_append,
    hdistinct, hcolumns, hjoins, hgroups, horder, values_clause, values_countPieces,
    List.nil_append, List.append_nil, constants]

end Select

namespace Insert

theorem values_rowPieces (table : String) (row : List (String × BoundValue)) :
    Piece.values (rowPieces table row) = row.map (·.2) := by
  have hvalues : (row.map fun v => [Piece.value v.2]).flatMap Piece.values = row.map (·.2) := by
    rw [List.flatMap_map, List.map_eq_flatMap]
    rfl
  simp [rowPieces, hvalues]

theorem values_returningPieces (d : Dialect) (column : Option String) :
    Piece.values (returningPieces d column) = [] := by
  unfold returningPieces
  split
  · rfl
  · next clause h =>
    obtain ⟨name, -, hclause⟩ := Option.bind_eq_some_iff.mp h
    unfold generatedKeyClause? at hclause
    split at hclause
    · obtain rfl := Option.some.inj hclause
      rfl
    · cases hclause

theorem values_pieces (i : Insert) (d : Dialect) : Piece.values (i.pieces d) = i.constants := by
  rw [pieces, values_append, values_rowPieces, values_returningPieces, List.append_nil, constants]

end Insert

theorem Update.values_pieces (u : Update) : values u.pieces = u.constants := by
  have hassignments : (u.assignments.map assignmentPieces).flatMap values
      = u.assignments.flatMap fun a => a.2.constants := by
    simp only [List.flatMap_map, assignmentPieces, values_name, values_text, Expr.values_pieces]
  simp [pieces, constants, hassignments, values_clause]

theorem Delete.values_pieces (q : Delete) : values q.pieces = q.constants := by
  simp [pieces, constants, values_clause]

namespace Upsert

theorem values_conflictPieces (updates : List (String × BoundValue)) :
    Piece.values (conflictPieces updates) = updates.map (·.2) := by
  unfold conflictPieces
  split
  · next h => rw [List.isEmpty_iff.mp h]; rfl
  · rw [values_text, values_commas, List.flatMap_map, List.map_eq_flatMap]
    rfl

theorem values_pieces (u : Upsert) : Piece.values u.pieces = u.constants := by
  simp [pieces, constants, Insert.values_rowPieces, values_conflictPieces]

end Upsert

/-! ## Parameters in a text -/

namespace Positional

open Text (Quoted.double Quoted.quote isWordChar)

/-- The parameters in a text: what stands after a colon up to the end of the word, outside names in
quotes. `quoted` says whether the text begins inside such a name; a doubled quote character ends the
name and begins it again. -/
def parametersIn (q : Char) : Bool → List Char → List String
  | _, [] => []
  | quoted, c :: r =>
    if c = q then parametersIn q (!quoted) r
    else if c = ':' ∧ quoted = false then
      String.ofList (r.takeWhile isWordChar) :: parametersIn q quoted r
    else parametersIn q quoted r

variable {q c : Char} {cs rest : List Char} {d : Dialect} {ps : List Piece} {issued : Nat}

theorem parametersIn_plain (hq : isQuote q = true) (h : ∀ c ∈ cs, isPlainChar c = true) :
    parametersIn q false (cs ++ rest) = parametersIn q false rest := by
  induction cs with
  | nil => rfl
  | cons c cs ih =>
    obtain ⟨hc, hcs⟩ := List.forall_mem_cons.mp h
    simp only [isPlainChar, Bool.and_eq_true, Bool.not_eq_true', bne_iff_ne] at hc
    have hne : c ≠ q := by
      rintro rfl
      rw [hq] at hc
      cases hc.1
    rw [List.cons_append, parametersIn, if_neg hne, if_neg (fun h => hc.2 h.1), ih hcs]

/-- Nothing inside quotes counts. -/
theorem parametersIn_double :
    parametersIn q true (Quoted.double q cs ++ q :: rest) = parametersIn q false rest := by
  induction cs with
  | nil => simp [Quoted.double, parametersIn]
  | cons c cs ih =>
    by_cases hc : c = q
    · simp [Quoted.double, parametersIn, hc, ih]
    · simp [Quoted.double, parametersIn, hc, ih]

theorem parametersIn_quote :
    parametersIn q false (Quoted.quote q cs ++ rest) = parametersIn q false rest := by
  have htext : Quoted.quote q cs ++ rest = q :: (Quoted.double q cs ++ q :: rest) := by
    simp [Quoted.quote]
  rw [htext, parametersIn, if_pos rfl, Bool.not_false, parametersIn_double]

theorem isPlainChar_of_mem_parameter {n : Nat} (h : c ∈ (parameter n).toList) :
    isPlainChar c = true :=
  List.all_eq_true.mp (isPlain_numbered (s := "p") (n := n) (by decide)) c h

theorem isWordChar_of_mem_parameter {n : Nat} (h : c ∈ (parameter n).toList) :
    isWordChar c = true := by
  have hname : (parameter n).toList = 'p' :: Text.Decimal.digits n := by
    simp [parameter, Text.Decimal.string]
  rw [hname] at h
  rcases List.mem_cons.mp h with rfl | hdigit
  · decide
  · have hd := Text.Decimal.isDigit_of_mem_digits n c hdigit
    have hrange : c.toNat < 128 :=
      Nat.lt_of_le_of_lt (Char.isDigit_iff_toNat.mp hd).2 (by decide)
    rw [Text.isWordChar_ascii hrange, Char.isAlphanum, hd, Bool.or_true, Bool.true_or]

theorem parametersIn_parameter {n : Nat} (hq : isQuote q = true)
    (h : rest.head?.all isBreakChar = true) :
    parametersIn q false ((":" ++ parameter n).toList ++ rest)
      = parameter n :: parametersIn q false rest := by
  have htext : (":" ++ parameter n).toList ++ rest = ':' :: ((parameter n).toList ++ rest) := by
    simp
  have hcolon : ':' ≠ q := by rintro rfl; cases hq
  have hword : ((parameter n).toList ++ rest).takeWhile isWordChar = (parameter n).toList :=
    Text.takeWhile_run (fun c hc => isWordChar_of_mem_parameter hc) (not_word_of_break h).2
  rw [htext, parametersIn, if_neg hcolon, if_pos ⟨rfl, rfl⟩, hword, String.ofList_toList,
    parametersIn_plain hq fun c hc => isPlainChar_of_mem_parameter hc]

/-- The parameters in the text of a query are those that its values are bound to. -/
theorem parametersIn_sql (h : Separated ps) :
    parametersIn d.quoteMark false (sql d issued ps).toList
      = (bindings issued ps).map (·.name) := by
  induction ps generalizing issued with
  | nil => simp [sql, bindings, parametersIn]
  | cons p ps ih =>
    cases p with
    | text s =>
      rw [sql, String.toList_append, parametersIn_plain isQuote_quoteMark (List.all_eq_true.mp h.1),
        ih h.2, bindings]
    | name s =>
      rw [sql, String.toList_append, Dialect.quote, Text.Quoted.toList_string, parametersIn_quote,
        ih h.2, bindings]
    | value v =>
      rw [sql, String.toList_append, parametersIn_parameter isQuote_quoteMark (head?_sql h.1),
        ih h.2, bindings, List.map_cons]

end Positional

/-! ## Queries with their parameters in order -/

/-- A query that a dialect makes from pieces and constants, when `issued` parameters are in use
before. Its parameters follow on those, each stands for a constant, in order, and its text names
these parameters and no others. A writer of the pieces writes it and takes as many parameters. -/
structure BoundQuery.Numbered (d : Dialect) (issued : Nat) (ps : List Piece)
    (constants : List BoundValue) (q : BoundQuery) : Prop where
  names : q.bindings.map (·.name) = (List.range' (issued + 1) constants.length).map parameter
  values : q.bindings.map (·.value) = constants
  placed : Positional.parametersIn d.quoteMark false q.sql.toList
    = (List.range' (issued + 1) constants.length).map parameter
  written : (Writer.start issued).writeAll d ps = ⟨issued + constants.length, q⟩

theorem Piece.numbered_toQuery {d : Dialect} {issued : Nat} {ps : List Piece} (h : Separated ps) :
    (toQuery d issued ps).Numbered d issued ps (values ps) where
  names := by
    rw [bindings_toQuery]
    exact map_name_bindings
  values := by
    rw [bindings_toQuery]
    exact map_value_bindings
  placed := by
    rw [sql_toQuery]
    exact (Positional.parametersIn_sql h).trans map_name_bindings
  written := writeAll_start

theorem Upsert.isOk_toQuery (u : Upsert) (d : Dialect) :
    (u.toQuery d).isOk = (d.hasUpsert && !u.target.isEmpty) := by
  unfold toQuery
  cases d.hasUpsert <;> cases u.target.isEmpty <;> rfl

/-- The parameters of an expression follow on those that are in use, and stand for its constants
from left to right; behind it as many more are in use as it has constants. The parameters of a
statement are counted from the first, over all of its clauses. An upsert is a statement where the
dialect has one and there are columns that a row can conflict in. -/
theorem parameters_follow_constants (d : Dialect) :
    (∀ (issued : Nat) (e : Expr),
      (e.toQuery d issued).Numbered d issued e.pieces e.constants ∧
        e.write d issued = ⟨issued + e.constants.length, e.toQuery d issued⟩) ∧
    (∀ s : Select, (s.toQuery d).Numbered d 0 s.pieces s.constants) ∧
    (∀ i : Insert, (i.toQuery d).Numbered d 0 (i.pieces d) i.constants) ∧
    (∀ u : Update, (u.toQuery d).Numbered d 0 u.pieces u.constants) ∧
    (∀ q : Delete, (q.toQuery d).Numbered d 0 q.pieces q.constants) ∧
    (∀ u : Upsert, (u.toQuery d).isOk = (d.hasUpsert && !u.target.isEmpty) ∧
      ∀ q, u.toQuery d = .ok q → q.Numbered d 0 u.pieces u.constants) := by
  refine ⟨fun issued e => ?_, fun s => ?_, fun i => ?_, fun u => ?_, fun q => ?_,
    fun u => ⟨u.isOk_toQuery d, fun q h => ?_⟩⟩
  · have hnumbered : (e.toQuery d issued).Numbered d issued e.pieces e.constants := by
      rw [← e.values_pieces]
      exact Piece.numbered_toQuery e.separated_pieces
    exact ⟨hnumbered, hnumbered.written⟩
  · rw [← s.values_pieces]
    exact Piece.numbered_toQuery s.separated_pieces
  · rw [← i.values_pieces d]
    exact Piece.numbered_toQuery (i.separated_pieces d)
  · rw [← u.values_pieces]
    exact Piece.numbered_toQuery u.separated_pieces
  · rw [← q.values_pieces]
    exact Piece.numbered_toQuery q.separated_pieces
  · rw [← (Built.upsert h).toQuery_eq, ← u.values_pieces]
    exact Piece.numbered_toQuery u.separated_pieces

/-- A setting that is inserted, or overwritten where it is there. -/
def themeSetting : Upsert where
  table := "settings"
  keys := [("name", .text "theme")]
  values := [("value", .text "dark"), ("since", .null)]

/-- The values of the row are bound once more for the case that there is one. -/
theorem parameters_follow_constants_themeSetting :
    ∃ q, themeSetting.toQuery .sqlite = .ok q ∧
      q.bindings.map (·.value) = [.text "theme", .text "dark", .null, .text "dark", .null] ∧
      Positional.parametersIn '"' false q.sql.toList = ["p1", "p2", "p3", "p4", "p5"] := by
  have hq : themeSetting.toQuery .sqlite = .ok (toQuery .sqlite 0 themeSetting.pieces) := rfl
  have hnumbered := ((parameters_follow_constants .sqlite).2.2.2.2.2 themeSetting).2 _ hq
  refine ⟨_, hq, hnumbered.values, hnumbered.placed.trans ?_⟩
  -- The digits of a number are found by dividing, which only the kernel follows.
  decide +kernel

/-- What is tested against the empty set is not written, and binds nothing. -/
example : (Expr.any [.inSet (.constant (.int 1)) [] false, .inSet (.constant (.int 2))
    [.constant (.int 3)] true]).constants = [.int 2, .int 3] := rfl

end SchemaEvolution
