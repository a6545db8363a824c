import SchemaEvolution.Proofs.Entries.Merged

/-!
# Descriptions tell operations apart

Descriptions are given in turn, through all three phases of a build, to the operations that are
written: each gets one that none before it has. So a description leads to one operation, although
the names that it is made of are free, and may themselves end in a number. The merged entries keep
the statements of an operation together.
-/

namespace SchemaEvolution

variable {d : Dialect} {taken taken' : List String} {os os' : List Operation}
  {version : String}

namespace Description

variable {base : String} {n : Nat}

theorem numbered_ne : numbered base n ≠ base := by
  intro h
  have hlength := congrArg String.length h
  simp only [numbered, String.length_append] at hlength
  have hdash : "-".length = 1 := rfl
  omega

/-- The description that an operation gets is not taken before. -/
theorem fresh_notMem (taken : List String) (base : String) : fresh taken base ∉ taken := by
  by_cases hin : base ∈ taken
  · obtain ⟨n, hn, hfresh⟩ := fresh_of_mem hin
    exact hfresh ▸ hn.free
  · rwa [fresh_of_notMem hin]

end Description

/-- An operation that is written, with the description that it gets. -/
structure DescribedOperation where
  operation : Operation
  description : String

namespace DescribedOperation

variable {x : DescribedOperation}

/-- The queries that an operation is written with. -/
def queries (d : Dialect) (x : DescribedOperation) : List DescribedQuery :=
  x.operation.statements.map fun s => ⟨x.description, s.text d⟩

/-- Whether the description of an operation is the right one when some are taken: what the operation
is for if that is new, or else that with the first number, from two on, that makes it new. -/
structure Follows (taken : List String) (x : DescribedOperation) : Prop where
  new : x.description ∉ taken
  plain : x.description = x.operation.description ↔ x.operation.description ∉ taken
  numbered : x.operation.description ∈ taken →
    ∃ n, Description.IsFirstFree taken x.operation.description n ∧
      x.description = Description.numbered x.operation.description n

theorem follows_fresh (taken : List String) (o : Operation) :
    Follows taken ⟨o, Description.fresh taken o.description⟩ where
  new := Description.fresh_notMem taken o.description
  plain := by
    constructor
    · intro heq hin
      obtain ⟨n, -, hfresh⟩ := Description.fresh_of_mem hin
      exact Description.numbered_ne (hfresh.symm.trans heq)
    · exact Description.fresh_of_notMem
  numbered := Description.fresh_of_mem

theorem Follows.congr (h : ∀ s, s ∈ taken ↔ s ∈ taken') (hx : x.Follows taken) :
    x.Follows taken' where
  new := fun hin => hx.new ((h _).mpr hin)
  plain := hx.plain.trans (not_congr (h _))
  numbered := fun hin => by
    obtain ⟨n, hn, heq⟩ := hx.numbered ((h _).mpr hin)
    exact ⟨n, hn.congr fun _ => h _, heq⟩

end DescribedOperation

/-- The operations that are written, with the descriptions that they get in turn. -/
def describedFrom : List String → List Operation → List DescribedOperation
  | _, [] => []
  | taken, o :: os =>
    if o.statements.isEmpty then describedFrom taken os
    else
      ⟨o, Description.fresh taken o.description⟩ ::
        describedFrom (Description.fresh taken o.description :: taken) os

/-- All that are written get a description, and no other operation does. -/
theorem map_operation_describedFrom :
    (describedFrom taken os).map (·.operation) = written os := by
  induction os generalizing taken with
  | nil => rfl
  | cons o os ih =>
    rw [describedFrom, written, List.filter_cons]
    cases ho : o.statements.isEmpty with
    | true => exact ih
    | false => exact congrArg (o :: ·) ih

theorem describedFrom_append (d : Dialect) : describedFrom taken (os ++ os')
    = describedFrom taken os ++ describedFrom (describeAll d taken os).2 os' := by
  induction os generalizing taken with
  | nil => rfl
  | cons o os ih =>
    rw [List.cons_append, describedFrom, describedFrom, describeAll_cons, describeNext]
    cases o.statements.isEmpty with
    | true => exact ih
    | false => exact congrArg (_ :: ·) ih

/-- The queries at a version are those of the operations at it, one operation after the other. -/
theorem queriesOf_describedFrom :
    queriesOf (describeAll d taken os).1 version
      = ((describedFrom taken os).filter (·.operation.version == version)).flatMap
        (·.queries d) := by
  induction os generalizing taken with
  | nil => rfl
  | cons o os ih =>
    rw [describeAll_cons, queriesOf_cons, ih, describeNext_version, describedFrom, describeNext]
    cases o.statements.isEmpty with
    | true => simp
    | false =>
      by_cases hv : o.version = version
      · simp [hv, Operation.describe, DescribedOperation.queries]
      · simp [hv]

/-- Each operation gets its description with regard to those before it. -/
theorem follows_of_split {earlier later : List DescribedOperation} {x : DescribedOperation}
    (h : describedFrom taken os = earlier ++ x :: later) :
    x.Follows (earlier.map (·.description) ++ taken) := by
  induction os generalizing taken earlier with
  | nil => cases earlier <;> cases h
  | cons o os ih =>
    rw [describedFrom] at h
    cases ho : o.statements.isEmpty with
    | true =>
      rw [ho, if_pos rfl] at h
      exact ih h
    | false =>
      rw [ho, if_neg Bool.false_ne_true] at h
      cases earlier with
      | nil =>
        obtain ⟨rfl, -⟩ := List.cons.inj h
        exact DescribedOperation.follows_fresh taken o
      | cons first earlier =>
        obtain ⟨rfl, hrest⟩ := List.cons.inj h
        refine (ih hrest).congr fun s => ?_
        simp only [List.map_cons, List.mem_append, List.mem_cons]
        tauto

theorem description_notMem {x : DescribedOperation} (hx : x ∈ describedFrom taken os) :
    x.description ∉ taken := by
  obtain ⟨earlier, later, hsplit⟩ := List.append_of_mem hx
  exact fun hin => (follows_of_split hsplit).new (List.mem_append_right _ hin)

/-- No two operations get one description. -/
theorem nodup_describedFrom : ((describedFrom taken os).map (·.description)).Nodup := by
  induction os generalizing taken with
  | nil => exact List.nodup_nil
  | cons o os ih =>
    rw [describedFrom]
    split
    · exact ih
    · refine List.nodup_cons.mpr ⟨fun hin => ?_, ih⟩
      obtain ⟨x, hx, heq⟩ := List.mem_map.mp hin
      exact description_notMem hx (heq ▸ List.mem_cons_self)

namespace Changelog

variable {h : SchemaHistory} {log : Changelog} {p : Plan} {start : LiveSchema}

namespace Plan

/-- All operations that are written, with their descriptions, in the order in which they get them:
first those on tables, then those on enums, then those on functions. -/
def described (p : Plan) : List DescribedOperation :=
  describedFrom [] (p.walk.operations ++ p.enums ++ p.functions)

/-- What is written at a version: the operations on enums, on functions and on tables. -/
def blocksAt (p : Plan) (d : Dialect) (version : String) : List DescribedOperation :=
  (describedFrom (p.describedTables d).2 p.enums).filter (·.operation.version == version)
    ++ (describedFrom (p.describedEnums d).2 p.functions).filter (·.operation.version == version)
    ++ (describedFrom [] p.walk.operations).filter (·.operation.version == version)

theorem described_eq (p : Plan) (d : Dialect) :
    p.described = describedFrom [] p.walk.operations
      ++ describedFrom (p.describedTables d).2 p.enums
      ++ describedFrom (p.describedEnums d).2 p.functions := by
  rw [described, describedFrom_append d, describedFrom_append d, describeAll_append]
  rfl

end Plan

/-- The merged entries are made of whole operations. -/
theorem entries_blocks : (ofPlan ⟨d, h⟩ p).entries = h.timeline.map fun version =>
    ⟨version, (p.blocksAt d version).flatMap (·.queries d)⟩ := by
  rw [entries_ofPlan]
  refine List.map_congr_left fun version _ => ?_
  rw [Plan.blocksAt, List.flatMap_append, List.flatMap_append, ← queriesOf_describedFrom,
    ← queriesOf_describedFrom, ← queriesOf_describedFrom]
  rfl

/-- Every operation that is written stands at one version. -/
theorem perm_blocks (hs : LiveSchema.start h = .ok start)
    (hw : start.walk ⟨d, h⟩ h.timeline = .ok p.walk)
    (henums : p.walk.final.enums.operations d p.walk.usesAt = .ok p.enums)
    (hf : functionOperations ⟨d, h⟩ = .ok p.functions) :
    (h.timeline.flatMap (p.blocksAt d)).Perm p.described := by
  have hversions : ∀ taken os, (∀ o ∈ os, o.version ∈ h.timeline) →
      ∀ x ∈ describedFrom taken os, x.operation.version ∈ h.timeline := by
    intro taken os hos x hx
    have hin : x.operation ∈ written os :=
      map_operation_describedFrom ▸ List.mem_map_of_mem hx
    exact hos _ (List.mem_filter.mp hin).1
  refine (perm_merged nodup_timeline (hversions _ _ (mem_timeline_of_enums hs hw henums))
    (hversions _ _ (mem_timeline_of_functions hf))
    (hversions _ _ (mem_timeline_of_tables hs hw))).trans ?_
  rw [p.described_eq d, List.append_assoc (describedFrom [] _)]
  exact List.perm_append_comm

/-- Descriptions tell operations apart. In a changelog the operations that are written, and no
others, get descriptions in turn, each with regard to those before it: what the operation is for, if
none of them has that description, and otherwise that with the first number, from two on, that none
of them has; there always is such a number. The entries are made of whole operations, each of which
stands once, at its version; and two statements have the same description exactly if they are
written for the same operation. -/
theorem descriptions_identify_operations (hlog : ofHistory d h = .ok log) :
    ∃ p, plan ⟨d, h⟩ = .ok p ∧
      p.described.map (·.operation) = written (p.walk.operations ++ p.enums ++ p.functions) ∧
      (∀ earlier x later, p.described = earlier ++ x :: later →
        x.Follows (earlier.map (·.description))) ∧
      (∀ taken base, ∃ n, Description.IsFirstFree taken base n) ∧
      log.entries = log.versions.map (fun version =>
        ⟨version, (p.blocksAt d version).flatMap (·.queries d)⟩) ∧
      (log.versions.flatMap (p.blocksAt d)).Perm p.described ∧
      (∀ version, ∀ x ∈ p.blocksAt d version, x.operation.version = version) ∧
      ∀ (i j : Nat) (x y : DescribedOperation),
        p.described[i]? = some x → p.described[j]? = some y →
        ∀ q ∈ x.queries d, ∀ q' ∈ y.queries d, q.description = q'.description ↔ i = j := by
  obtain ⟨p, hp, rfl⟩ := Except.map_ok.mp hlog
  obtain ⟨start, hs, hw, -, henums, hf⟩ := plan_ok hp
  refine ⟨p, hp, map_operation_describedFrom, fun earlier x later hsplit => ?_,
    fun taken base => ?_, entries_blocks, perm_blocks hs hw henums hf,
    fun version x hx => ?_, fun i j x y hx hy q hq q' hq' => ?_⟩
  · have hfollows := follows_of_split hsplit
    rwa [List.append_nil] at hfollows
  · obtain ⟨n, hn, -⟩ := Description.exists_firstFree taken base
    exact ⟨n, hn⟩
  · unfold Plan.blocksAt at hx
    simp only [List.mem_append, List.mem_filter, beq_iff_eq] at hx
    tauto
  · obtain ⟨s, -, rfl⟩ := List.mem_map.mp hq
    obtain ⟨s', -, rfl⟩ := List.mem_map.mp hq'
    have hget : ∀ (k : Nat) (z : DescribedOperation), p.described[k]? = some z →
        (p.described.map (·.description))[k]? = some z.description := by
      intro k z hz
      rw [List.getElem?_map, hz]
      rfl
    constructor
    · intro heq
      have hlt : i < (p.described.map (·.description)).length := by
        rw [List.length_map]
        exact (List.getElem?_eq_some_iff.mp hx).1
      exact (List.getElem?_inj hlt nodup_describedFrom).mp
        ((hget i x hx).trans ((congrArg some heq).trans (hget j y hy).symm))
    · rintro rfl
      obtain rfl := Option.some.inj (hx.symm.trans hy)
      rfl

/-- A table with a column that is added twice, and one whose name ends in a number: the description
with which the first one would be added again is that of the other. -/
def numberedBooks : SchemaHistory where
  tables := [⟨"app.Book", [⟨"1", some "book", [.add "title" { type := .text }], [], []⟩,
    ⟨"2", none, [.add "note" { type := .text }, .add "note-2" { type := .text }], [], []⟩,
    ⟨"3", none, [.remove "note", .add "note" { type := .text }], [], []⟩]⟩]

theorem descriptions_identify_operations_numberedBooks :
    ∃ log p, ofHistory .mysql numberedBooks = .ok log ∧ plan ⟨.mysql, numberedBooks⟩ = .ok p ∧
      p.described.map (·.description) = ["create-table-book", "add-column-book-note",
        "add-column-book-note-2", "remove-column-book-note", "add-column-book-note-3"] ∧
      ∃ x y, p.described[1]? = some x ∧ p.described[4]? = some y ∧
        x.operation.description = y.operation.description ∧
        ∀ q ∈ x.queries .mysql, ∀ q' ∈ y.queries .mysql, q.description ≠ q'.description := by
  obtain ⟨log, hlog⟩ := Except.exists_of_isOk
    (show (ofHistory .mysql numberedBooks).isOk = true by decide)
  obtain ⟨p, hp, -, -, -, -, -, -, hidentify⟩ := descriptions_identify_operations hlog
  have hdescribed : p.described.map (·.description) = ["create-table-book",
      "add-column-book-note", "add-column-book-note-2", "remove-column-book-note",
      "add-column-book-note-3"] ∧
      ∃ x y, p.described[1]? = some x ∧ p.described[4]? = some y ∧
        x.operation.description = y.operation.description := by
    obtain rfl := Except.ok.inj (hp.symm.trans rfl)
    exact ⟨by decide +kernel, _, _, rfl, rfl, rfl⟩
  obtain ⟨hdescriptions, x, y, hx, hy, hbase⟩ := hdescribed
  refine ⟨log, p, hlog, hp, hdescriptions, x, y, hx, hy, hbase, fun q hq q' hq' heq => ?_⟩
  exact absurd ((hidentify 1 4 x y hx hy q hq q' hq').mp heq) (by decide)

end Changelog

end SchemaEvolution
