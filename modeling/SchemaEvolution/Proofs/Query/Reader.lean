import SchemaEvolution.Proofs.Query.Marked

/-!
# Reading expressions

An expression is read from its text, given what the parameters stand for. What comes first tells a
verdict (`TRUE` or `FALSE`) and a negation from an expression that begins with an operand; what
comes after that operand tells all others apart. An operand is bare, or it stands in parentheses,
and then it is read up to the closing one.

Names are read by their quote characters, so that nothing inside them counts. A comparison is read
for a test against a set of one element, and a conjunction for anything in parentheses that nothing
follows: these are written alike.
-/

namespace SchemaEvolution.Reader

/-! ## Words -/

/-- The text after a word, if it begins with the word. -/
def after? : List Char → List Char → Option (List Char)
  | [], cs => some cs
  | w :: ws, c :: cs => if w = c then after? ws cs else none
  | _ :: _, [] => none

/-- The first word of a table that a text begins with, by what the table has for it, and the text
after it. -/
def word? {α : Type} : List (String × α) → List Char → Option (α × List Char)
  | [], _ => none
  | (word, a) :: table, cs =>
    match after? word.toList cs with
    | some r => some (a, r)
    | none => word? table cs

/-- What an expression may begin with, other than an operand. -/
inductive Opening where
  | verdict (e : Expr)
  | negation

def openings : List (String × Opening) :=
  [("TRUE", .verdict (.all [])), ("FALSE", .verdict (.any [])), ("NOT (", .negation)]

/-- What may stand after the first operand of an expression. -/
inductive Connective where
  | math (op : ArithmeticOp)
  | compare (op : ComparisonOp)
  | between
  | inSet (negated : Bool)
  | and
  | or

def connectives : List (String × Connective) :=
  [(" + ", .math .add), (" - ", .math .sub), (" * ", .math .mul), (" / ", .math .div),
    (" = ", .compare .eq), (" <> ", .compare .notEq), (" < ", .compare .lt),
    (" <= ", .compare .ltEq), (" > ", .compare .gt), (" >= ", .compare .gtEq),
    (" LIKE ", .compare .like), (" NOT LIKE ", .compare .notLike), (" BETWEEN ", .between),
    (" IN (", .inSet false), (" NOT IN (", .inSet true), (" AND ", .and), (" OR ", .or)]

def aggregates : List (String × Aggregate) :=
  [("COUNT(", .count), ("SUM(", .sum), ("AVG(", .avg), ("MIN(", .min), ("MAX(", .max)]

/-! ## The reader -/

/-- An operand as it is read. -/
structure Operand where
  expr : Expr
  /-- Whether it stood without parentheses. -/
  bare : Bool

section

variable (d : Dialect) (value? : String → Option BoundValue)

def readColumn (cs : List Char) : Option (ColumnPath × List Char) :=
  match Text.Quoted.scan d.quoteMark cs with
  | none => none
  | some (name, '.' :: r) =>
    (Text.Quoted.scan d.quoteMark r).map fun c =>
      (⟨some (String.ofList name), String.ofList c.1⟩, c.2)
  | some (name, r) => some (⟨none, String.ofList name⟩, r)

/-- Reads an expression without operators. -/
def readAtom (cs : List Char) : Option (Expr × List Char) :=
  match word? aggregates cs with
  | some (f, r) =>
    match after? "*)".toList r with
    | some r => some (.aggregate f none, r)
    | none => do
      let (c, r) ← readColumn d r
      let r ← after? [')'] r
      return (.aggregate f (some c), r)
  | none =>
    match cs with
    | ':' :: r => do
      let v ← value? (String.ofList (r.takeWhile Char.isAlphanum))
      return (.constant v, r.dropWhile Char.isAlphanum)
    | cs => (readColumn d cs).map fun c => (.column c.1, c.2)

mutual

/-- Reads an expression, which is no deeper than the first argument. -/
def readExpr : Nat → List Char → Option (Expr × List Char)
  | 0, _ => none
  | n + 1, cs =>
    match word? openings cs with
    | some (.verdict e, r) => some (e, r)
    | some (.negation, r) => do
      let (e, r) ← readExpr n r
      let r ← after? [')'] r
      return (.not e, r)
    | none => do
      let (first, r) ← readOperand n cs
      readAfter n first r

def readOperand : Nat → List Char → Option (Operand × List Char)
  | n + 1, '(' :: r => do
    let (e, r) ← readExpr n r
    let r ← after? [')'] r
    return (⟨e, false⟩, r)
  | _, cs => (readAtom d value? cs).map fun e => (⟨e.1, true⟩, e.2)

/-- Reads what follows the first operand. -/
def readAfter : Nat → Operand → List Char → Option (Expr × List Char)
  | 0, _, _ => none
  | n + 1, first, cs =>
    match word? connectives cs with
    | none => some (if first.bare then first.expr else .all [first.expr], cs)
    | some (.math op, r) => do
      let (second, r) ← readOperand n r
      return (.math first.expr op second.expr, r)
    | some (.compare op, r) => do
      let (second, r) ← readOperand n r
      return (.compare first.expr op second.expr, r)
    | some (.between, r) => do
      let (low, r) ← readOperand n r
      let r ← after? " AND ".toList r
      let (high, r) ← readOperand n r
      return (.between first.expr low.expr high.expr, r)
    | some (.inSet negated, r) => do
      let (e, r) ← readOperand n r
      let (es, r) ← readFurther ", " n r
      let r ← after? [')'] r
      return (.inSet first.expr (e.expr :: es) negated, r)
    | some (.and, r) => do
      let (e, r) ← readOperand n r
      let (es, r) ← readFurther " AND " n r
      return (.all (first.expr :: e.expr :: es), r)
    | some (.or, r) => do
      let (e, r) ← readOperand n r
      let (es, r) ← readFurther " OR " n r
      return (.any (first.expr :: e.expr :: es), r)

/-- Reads operands as long as a separator comes before them. -/
def readFurther (separator : String) : Nat → List Char → Option (List Expr × List Char)
  | 0, cs => some ([], cs)
  | n + 1, cs =>
    match after? separator.toList cs with
    | none => some ([], cs)
    | some r => do
      let (e, r) ← readOperand n r
      let (es, r) ← readFurther separator n r
      return (e.expr :: es, r)

end

end

end SchemaEvolution.Reader
