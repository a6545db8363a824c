import SchemaEvolution.Changelog.Basic
import SchemaEvolution.Ddl.Statement

/-!
# Describing operations

An operation is what one edit does to the database: some statements, which share a description. A
description is used by one operation only. When an earlier operation has it, `-2` is appended, or
the least number from two on that makes it a new one. An operation without statements uses none.
-/

namespace SchemaEvolution

/-- What one edit does to the database at a version. -/
structure Operation where
  version : String
  /-- What the operation is for, before it is told apart from others. -/
  description : String
  statements : List Ddl
  deriving DecidableEq, Repr

namespace Description

/-- A description with a number appended. -/
def numbered (base : String) (n : Nat) : String := base ++ "-" ++ Text.Decimal.string n

/-- The first of the descriptions with a number from `n` on that is not taken. Among `fuel + 1` of
them there is one as long as no more than `fuel` are taken. -/
def firstFree (taken : List String) (base : String) : Nat → Nat → String
  | 0, n => numbered base n
  | fuel + 1, n =>
    if numbered base n ∈ taken then firstFree taken base fuel (n + 1) else numbered base n

/-- The description that an operation gets when some are taken. -/
def fresh (taken : List String) (base : String) : String :=
  if base ∈ taken then firstFree taken base taken.length 2 else base

end Description

/-- The statements of an operation in SQL, under a description. -/
def Operation.describe (d : Dialect) (o : Operation) (description : String) : VersionEntry :=
  ⟨o.version, o.statements.map fun s => ⟨description, s.text d⟩⟩

/-- Describes operations in turn. The answer has what each of them does, and all descriptions that
are taken at the end. -/
def describeAll (d : Dialect) :
    List String → List Operation → List VersionEntry × List String
  | taken, [] => ([], taken)
  | taken, o :: os =>
    if o.statements.isEmpty then
      let rest := describeAll d taken os
      (⟨o.version, []⟩ :: rest.1, rest.2)
    else
      let description := Description.fresh taken o.description
      let rest := describeAll d (description :: taken) os
      (o.describe d description :: rest.1, rest.2)

/-- Gathers queries by version; versions without any are left out. -/
def gather (versions : List String) (done : List VersionEntry) : List VersionEntry :=
  versions.filterMap fun version =>
    let queries := (done.filter (·.version == version)).flatMap (·.queries)
    if queries.isEmpty then none else some ⟨version, queries⟩

end SchemaEvolution
