import SchemaEvolution.Proofs.Documents.RoundTrip
import SchemaEvolution.Proofs.Documents.Steady

/-!
# The order of members does not matter

The places of a history, and that everything in it is read steadily: a document that is accepted is
read as the same history when the members of any of its objects are permuted and when members that
nobody asks for are inserted into its records.

The type of a column is no record. Its object has one member, whose key says what the type is.
-/

namespace SchemaEvolution

open Json (Form Place ReadError Reading Rearranges Record Steady)

/-! ## Types and kinds -/

namespace ColumnType

variable {reading : Reading} {key : String} {content v w : Json} {ms : Record} {type : ColumnType}

theorem decodeNothing_ok :
    decodeNothing reading v = .ok () ↔ v = .null ∨ v = .object [] ∧ reading = .held := by
  cases v with
  | object ms => cases ms <;> simp [decodeNothing]
  | _ => simp [decodeNothing]

theorem steady_decodeNothing : Steady .plain (decodeNothing reading) := by
  intro v w a h hv
  obtain rfl | ⟨rfl, hreading⟩ := decodeNothing_ok.mp hv
  · cases h
  · generalize hms : ([] : Record) = ms at h
    cases h with
    | permute hperm =>
      subst hms
      rw [hperm.nil_eq] at hv
      exact hv
    | insert hfields => cases hfields
    | member => simp at hms

theorem decodeDecimal_ok {vs : List Json} :
    decodeDecimal reading (.array vs) = .ok type ↔
      ∃ p s m n, vs = [p, s] ∧ p.asNat UInt8.size = .ok m ∧ s.asNat UInt8.size = .ok n ∧
        type = .decimal (UInt8.ofNat m) (UInt8.ofNat n) := by
  match vs with
  | [] => simp [decodeDecimal]
  | [p] =>
    constructor
    · intro h
      obtain ⟨m, -, hm⟩ := Except.bind_ok.mp h
      cases hm
    · rintro ⟨p, s, m, n, hvs, -⟩
      cases hvs
  | p :: s :: rest =>
    simp only [decodeDecimal, Except.bind_ok]
    constructor
    · rintro ⟨m, hm, n, hn, htype⟩
      split at htype
      · rename_i hrest
        obtain rfl := List.isEmpty_iff.mp hrest
        exact ⟨p, s, m, n, rfl, hm, hn, (Except.ok.inj htype).symm⟩
      · cases htype
    · rintro ⟨p, s, m, n, hvs, hm, hn, rfl⟩
      obtain ⟨rfl, rfl, rfl⟩ : _ ∧ _ ∧ rest = [] := by simpa using hvs
      exact ⟨m, hm, n, hn, rfl⟩

theorem steady_decodeDecimal {p : Place} : Steady p (decodeDecimal reading) := by
  intro v w a h hv
  cases h with
  | permute | insert | member | unreadable => cases hv
  | element helement =>
    rename_i front back v w
    obtain ⟨p, s, m, n, hvs, hm, hn, rfl⟩ := decodeDecimal_ok.mp hv
    refine decodeDecimal_ok.mpr ?_
    match front, back, hvs with
    | [], [_], rfl => exact ⟨w, s, m, n, rfl, Steady.nat helement hm, hn, rfl⟩
    | [_], [], rfl => exact ⟨p, w, m, n, rfl, hm, Steady.nat helement hn, rfl⟩
    | _ :: _ :: _, _, hvs => simp at hvs

/-- The type under a key, and what stands there. -/
def decodeContent (reading : Reading) (key : String) (content : Json) :
    Except ReadError ColumnType :=
  match key with
  | "decimal" => decodeDecimal reading content
  | "char" => (content.asNat UInt32.size).map fun n => .char (UInt32.ofNat n)
  | "varchar" => (content.asNat UInt32.size).map fun n => .varchar (UInt32.ofNat n)
  | "enum" => content.asString.map .enum
  | "array" => (decode reading content).map .array
  | name =>
    match ofName? name with
    | some type => (decodeNothing reading content).map fun _ => type
    | none => .error .mismatch

theorem decode_cons {rest : Record} :
    decode reading (.object ((key, content) :: rest)) =
      decodeContent reading key content >>= fun type =>
        if rest.isEmpty then pure type else throw reading.misfit := by
  rw [decode.eq_def]
  dsimp only
  split
  iterate 5 rfl
  rw [decodeContent]
  · cases ofName? key <;> rfl
  all_goals assumption

theorem decode_object_ok :
    decode reading (.object ms) = .ok type ↔
      ∃ key content, ms = [(key, content)] ∧ decodeContent reading key content = .ok type := by
  cases ms with
  | nil => simp [decode]
  | cons m rest =>
    obtain ⟨key, content⟩ := m
    rw [decode_cons, Except.bind_ok]
    constructor
    · rintro ⟨type, htype, hrest⟩
      split at hrest
      · rename_i hempty
        obtain rfl := List.isEmpty_iff.mp hempty
        obtain rfl := Except.ok.inj hrest
        exact ⟨key, content, rfl, htype⟩
      · cases hrest
    · rintro ⟨key, content, hms, htype⟩
      obtain ⟨⟨rfl, rfl⟩, rfl⟩ : (_ ∧ _) ∧ rest = [] := by simpa using hms
      exact ⟨type, htype, rfl⟩

/-- What stands under a key is read steadily, if the element of an array is. -/
theorem decodeContent_of_rearranges (h : Rearranges .plain v w)
    (helement : ∀ type, decode reading v = .ok type → decode reading w = .ok type)
    (hv : decodeContent reading key v = .ok type) : decodeContent reading key w = .ok type := by
  rw [decodeContent.eq_def] at hv
  split at hv
  · exact steady_decodeDecimal h hv
  · exact Steady.nat.map h hv
  · exact Steady.nat.map h hv
  · exact Steady.string.map h hv
  · obtain ⟨element, hdecode, rfl⟩ := Except.map_ok.mp hv
    exact Except.map_ok.mpr ⟨element, helement element hdecode, rfl⟩
  · rw [decodeContent]
    · split at hv
      · exact steady_decodeNothing.map h hv
      · cases hv
    all_goals assumption

theorem steady_decode : Steady .plain (decode reading) := by
  intro v w type h hv
  generalize hp : Place.plain = p at h
  induction h generalizing type with
  | permute hperm =>
    obtain ⟨key, content, rfl, hcontent⟩ := decode_object_ok.mp hv
    exact decode_object_ok.mpr ⟨key, content, hperm.symm.eq_singleton, hcontent⟩
  | insert hfields =>
    subst hp
    cases hfields
  | member h ih =>
    subst hp
    rename_i ms ms' _ v w
    obtain ⟨key, content, hms, hcontent⟩ := decode_object_ok.mp hv
    match ms, ms', hms with
    | [], [], rfl =>
      have helement : ∀ type, decode reading v = .ok type → decode reading w = .ok type :=
        fun _ hdecode => ih hdecode rfl
      exact decode_object_ok.mpr
        ⟨_, w, rfl, decodeContent_of_rearranges h helement hcontent⟩
    | _ :: _, _, hms => simp at hms
  | element => simp [decode] at hv
  | unreadable => simp [decode] at hv

end ColumnType

theorem decodeName_object_ok {α : Type} {reading : Reading} {ofName? : String → Option α}
    {ms : Record} {a : α} :
    decodeName reading ofName? (.object ms) = .ok a ↔
      ∃ name content, ms = [(name, content)] ∧ ofName? name = some a ∧
        ColumnType.decodeNothing reading content = .ok () := by
  cases ms with
  | nil => simp [decodeName]
  | cons m rest =>
    obtain ⟨name, content⟩ := m
    rw [decodeName]
    cases hname : ofName? name with
    | none =>
      simp only [reduceCtorEq, false_iff]
      rintro ⟨name, content, hms, ha, -⟩
      obtain ⟨⟨rfl, rfl⟩, -⟩ : (_ ∧ _) ∧ rest = [] := by simpa using hms
      simp [hname] at ha
    | some b =>
      simp only [Except.bind_ok]
      constructor
      · rintro ⟨u, hu, hrest⟩
        split at hrest
        · rename_i hempty
          obtain rfl := List.isEmpty_iff.mp hempty
          exact ⟨name, content, rfl, by rw [hname, ← Except.ok.inj hrest], hu⟩
        · cases hrest
      · rintro ⟨name, content, hms, ha, hcontent⟩
        obtain ⟨⟨rfl, rfl⟩, rfl⟩ : (_ ∧ _) ∧ rest = [] := by simpa using hms
        obtain rfl := Option.some.inj (hname.symm.trans ha)
        exact ⟨(), hcontent, rfl⟩

theorem steady_decodeName {α : Type} {reading : Reading} {ofName? : String → Option α} :
    Steady .plain (decodeName reading ofName?) := by
  intro v w a h hv
  cases h with
  | permute hperm =>
    obtain ⟨name, content, rfl, hname, hcontent⟩ := decodeName_object_ok.mp hv
    exact decodeName_object_ok.mpr
      ⟨name, content, hperm.symm.eq_singleton, hname, hcontent⟩
  | insert hfields => cases hfields
  | member h =>
    rename_i ms ms' _ v w
    obtain ⟨name, content, hms, hname, hcontent⟩ := decodeName_object_ok.mp hv
    match ms, ms', hms with
    | [], [], rfl =>
      exact decodeName_object_ok.mpr
        ⟨_, w, rfl, hname, ColumnType.steady_decodeNothing h hcontent⟩
    | _ :: _, _, hms => simp at hms
  | element | unreadable => cases hv

theorem steady_decodeNames : Steady (.list .plain) decodeNames := Steady.string.list

/-! ## Columns -/

namespace ColumnShape

def fieldPlaces : List (String × Place) :=
  [("type", .plain), ("nullable", .plain), ("default", .plain)]

def place : Place := .record fieldPlaces

theorem steady_ofRecord {reading : Reading} : Record.Steady fieldPlaces (ofRecord reading) :=
  .bind (.required rfl ColumnType.steady_decode) fun _ =>
    .bind (.withDefault rfl .bool) fun _ =>
      .bind (.withDefault rfl (.option .string)) fun _ => .pure

theorem steady {reading : Reading} : Steady place (decode reading) :=
  .record rfl (by decide) steady_ofRecord

end ColumnShape

/-! ## Edits -/

namespace PropertyEdit

def casePlaces : List (String × List (String × Place)) :=
  [("add", [("name", .plain), ("column", ColumnShape.place)]),
    ("rename", [("name", .plain), ("to", .plain)]),
    ("retype", [("name", .plain), ("column", ColumnShape.place)]),
    ("remove", [("name", .plain)])]

def place : Place := .tagged "op" casePlaces

theorem steady : Steady place decode := by
  refine .tagged rfl fun c hc => ?_
  simp only [casePlaces, List.mem_cons, List.not_mem_nil, or_false] at hc
  obtain rfl | rfl | rfl | rfl := hc
  · exact .record rfl (by decide) (.bind (.required rfl .string) fun _ =>
      .bind (.required rfl ColumnShape.steady) fun _ => .pure)
  · exact .record rfl (by decide) (.bind (.required rfl .string) fun _ =>
      .bind (.required rfl .string) fun _ => .pure)
  · exact .record rfl (by decide) (.bind (.required rfl .string) fun _ =>
      .bind (.required rfl ColumnShape.steady) fun _ => .pure)
  · exact .record rfl (by decide) (.bind (.required rfl .string) fun _ => .pure)

end PropertyEdit

namespace ConstraintEdit

def casePlaces : List (String × List (String × Place)) :=
  [("add_primary_key", [("name", .plain), ("columns", .list .plain)]),
    ("add_foreign_key", [("name", .plain), ("column", .plain), ("references", .plain),
      ("referenced_column", .plain)]),
    ("remove", [("kind", .plain), ("name", .plain)])]

def place : Place := .tagged "op" casePlaces

theorem steady : Steady place decode := by
  refine .tagged rfl fun c hc => ?_
  simp only [casePlaces, List.mem_cons, List.not_mem_nil, or_false] at hc
  obtain rfl | rfl | rfl := hc
  · exact .record rfl (by decide) (.bind (.required rfl .string) fun _ =>
      .bind (.required rfl steady_decodeNames) fun _ => .pure)
  · exact .record rfl (by decide) (.bind (.required rfl .string) fun _ =>
      .bind (.required rfl .string) fun _ => .bind (.required rfl .string) fun _ =>
        .bind (.required rfl .string) fun _ => .pure)
  · exact .record rfl (by decide) (.bind (.required rfl steady_decodeName) fun _ =>
      .bind (.required rfl .string) fun _ => .pure)

end ConstraintEdit

namespace IndexEdit

def casePlaces : List (String × List (String × Place)) :=
  [("add", [("kind", .plain), ("name", .plain), ("columns", .list .plain)]),
    ("remove", [("kind", .plain), ("name", .plain)])]

def place : Place := .tagged "op" casePlaces

theorem steady : Steady place decode := by
  refine .tagged rfl fun c hc => ?_
  simp only [casePlaces, List.mem_cons, List.not_mem_nil, or_false] at hc
  obtain rfl | rfl := hc
  · exact .record rfl (by decide) (.bind (.withDefault rfl steady_decodeName) fun _ =>
      .bind (.required rfl .string) fun _ =>
        .bind (.required rfl steady_decodeNames) fun _ => .pure)
  · exact .record rfl (by decide) (.bind (.withDefault rfl steady_decodeName) fun _ =>
      .bind (.required rfl .string) fun _ => .pure)

end IndexEdit

/-! ## Tables, enums and functions -/

section

variable {reading : Reading}

def TableStep.place : Place :=
  .record [("version", .plain), ("name", .plain), ("properties", .list PropertyEdit.place),
    ("constraints", .list ConstraintEdit.place), ("indices", .list IndexEdit.place)]

theorem TableStep.steady : Steady place (decode reading) :=
  .record rfl (by decide) (.bind (.required rfl .string) fun _ =>
    .bind (.withDefault rfl (.option .string)) fun _ =>
      .bind (.withDefault rfl (.list PropertyEdit.steady)) fun _ =>
        .bind (.withDefault rfl (.list ConstraintEdit.steady)) fun _ =>
          .bind (.withDefault rfl (.list IndexEdit.steady)) fun _ => .pure)

def TableHistory.place : Place := .record [("id", .plain), ("changes", .list TableStep.place)]

theorem TableHistory.steady : Steady place (decode reading) :=
  .record rfl (by decide) (.bind (.required rfl .string) fun _ =>
    .bind (.withDefault rfl (.list TableStep.steady)) fun _ => .pure)

def EnumStep.place : Place := .record [("version", .plain), ("values", .list .plain)]

theorem EnumStep.steady : Steady place (decode reading) :=
  .record rfl (by decide) (.bind (.required rfl .string) fun _ =>
    .bind (.required rfl steady_decodeNames) fun _ => .pure)

def EnumHistory.place : Place :=
  .record [("name", .plain), ("reference", .plain), ("changes", .list EnumStep.place)]

theorem EnumHistory.steady : Steady place (decode reading) :=
  .record rfl (by decide) (.bind (.required rfl .string) fun _ =>
    .bind (.required rfl .string) fun _ =>
      .bind (.withDefault rfl (.list EnumStep.steady)) fun _ => .pure)

def FunctionStep.place : Place :=
  .record [("version", .plain), ("parameters", .list .plain), ("returns", .plain),
    ("body", .plain)]

theorem FunctionStep.steady : Steady place (decode reading) :=
  .record rfl (by decide) (.bind (.required rfl .string) fun _ =>
    .bind (.withDefault rfl (.list ColumnType.steady_decode)) fun _ =>
      .bind (.required rfl ColumnType.steady_decode) fun _ =>
        .bind (.required rfl .string) fun _ => .pure)

def FunctionHistory.place : Place :=
  .record [("name", .plain), ("versions", .list FunctionStep.place)]

theorem FunctionHistory.steady : Steady place (decode reading) :=
  .record rfl (by decide) (.bind (.required rfl .string) fun _ =>
    .bind (.withDefault rfl (.list FunctionStep.steady)) fun _ => .pure)

/-! ## The whole document -/

namespace SchemaHistory

def place : Place :=
  .record [("tables", .list TableHistory.place), ("enums", .list EnumHistory.place),
    ("functions", .list FunctionHistory.place)]

theorem steady : Steady place (decode reading) :=
  .record rfl (by decide) (.bind (.withDefault rfl (.list TableHistory.steady)) fun _ =>
    .bind (.withDefault rfl (.list EnumHistory.steady)) fun _ =>
      .bind (.withDefault rfl (.list FunctionHistory.steady)) fun _ => .pure)

variable {v w : Json} {h : SchemaHistory}

theorem ofValue_ok : ofValue v = .ok h ↔ decode .streamed v = .ok h := by
  refine ⟨fun hv => ?_, Form.decode_of_ok⟩
  rw [ofValue, Form.decode] at hv
  split at hv
  · rename_i hdecode
    rw [hdecode, hv]
  · split at hv <;> cases hv

theorem ofText_ok {text : String} :
    ofText text = .ok h ↔ ∃ v, Json.read .held text = .ok v ∧ ofValue v = .ok h := by
  rw [ofText, Except.bind_ok]
  exact exists_congr fun v => and_congr_left' Json.read_ok_congr

/-- A value that is read as a history is read as the same history however it is rearranged. -/
theorem ofValue_of_rearranges (hvw : Relation.ReflTransGen (Rearranges place) v w)
    (hv : ofValue v = .ok h) : ofValue w = .ok h := by
  induction hvw with
  | refl => exact hv
  | tail _ hstep ih => exact ofValue_ok.mpr (steady hstep (ofValue_ok.mp ih))

/-- A document that is accepted means the same whatever the order of its members, and whatever
further strings, booleans and nulls stand in its records: every rearrangement of its value is
accepted as the same history, and so is every text of such a rearrangement. -/
theorem ofText_of_rearranges {text : String} (htext : ofText text = .ok h) :
    ∃ v, Json.read .held text = .ok v ∧
      ∀ w, Relation.ReflTransGen (Rearranges place) v w →
        ofValue w = .ok h ∧
          ∀ text', Json.read .held text' = .ok w → ofText text' = .ok h := by
  obtain ⟨v, hread, hv⟩ := ofText_ok.mp htext
  refine ⟨v, hread, fun w hvw => ?_⟩
  have hw := ofValue_of_rearranges hvw hv
  exact ⟨hw, fun text' hread' => ofText_ok.mpr ⟨w, hread', hw⟩⟩

/-! A table with one column, whose edit is given as it stands in the document. -/

def flagStep (edit : Json) : Json :=
  .object [("version", .string "1"), ("name", .string "notes"), ("properties", .array [edit])]

def flagDocument (edit : Json) : Json :=
  .object [("tables", .array [.object [("id", .string "t"), ("changes", .array [flagStep edit])]])]

/-- An edit that begins with its tag. -/
def tagFirst : Json :=
  .object [("op", .string "add"), ("name", .string "flag"),
    ("column", .object [("type", .string "boolean"), ("nullable", .bool true)])]

/-- The edit with its tag at the end, a field of another edit, and something about the column. -/
def tagLast : Json :=
  .object [("to", .null), ("column", .object [("comment", .string "op"),
      ("type", .string "boolean"), ("nullable", .bool true)]),
    ("name", .string "flag"), ("op", .string "add")]

def flagHistory : SchemaHistory where
  tables := [⟨"t", [{
    version := "1"
    name := some "notes"
    properties := [.add "flag" ⟨.boolean, true, none⟩] }]⟩]

theorem rearranges_flagDocument {edit edit' : Json}
    (h : Rearranges PropertyEdit.place edit edit') :
    Rearranges place (flagDocument edit) (flagDocument edit') := by
  have hedits : Rearranges (.list PropertyEdit.place) (.array [edit]) (.array [edit']) :=
    @Rearranges.element _ [] [] _ _ h
  have hstep : Rearranges TableStep.place (flagStep edit) (flagStep edit') :=
    @Rearranges.member _ [_, _] [] _ _ _ hedits
  have hsteps : Rearranges (.list TableStep.place) (.array [flagStep edit])
      (.array [flagStep edit']) := @Rearranges.element _ [] [] _ _ hstep
  exact @Rearranges.member _ [] [] _ _ _ (@Rearranges.element _ [] [] _ _
    (@Rearranges.member _ [_] [] _ _ _ hsteps))

theorem tagFirst_rearranges :
    Relation.ReflTransGen (Rearranges PropertyEdit.place) tagFirst tagLast := by
  refine .head (@Rearranges.member _ [_, _] [] _ _ _ (@Rearranges.insert ColumnShape.place _
    ColumnShape.fieldPlaces "comment" (.string "op") rfl (by decide) (by decide) rfl)) ?_
  refine .head (@Rearranges.insert _ _ _ "to" .null rfl (by decide) (by decide) rfl) ?_
  exact .single (.permute ((List.reverse_perm _).symm.cons _))

/-- Both documents say the same. -/
theorem ofText_of_rearranges_flag :
    ofText (flagDocument tagFirst).compact = .ok flagHistory ∧
      ofText (flagDocument tagLast).compact = .ok flagHistory := by
  have hread : ∀ edit ∈ [tagFirst, tagLast],
      Json.read .held (flagDocument edit).compact = .ok (flagDocument edit) := by
    intro edit hedit
    rw [List.mem_pair] at hedit
    obtain rfl | rfl := hedit <;>
      exact Json.read_compact (by simp [flagDocument, flagStep, tagFirst, tagLast, Json.Plain.null])
        (by decide) _
  have hfirst : ofText (flagDocument tagFirst).compact = .ok flagHistory :=
    ofText_ok.mpr ⟨_, hread _ (by simp), rfl⟩
  obtain ⟨v, hv, hall⟩ := ofText_of_rearranges hfirst
  obtain rfl : flagDocument tagFirst = v := Except.ok.inj ((hread _ (by simp)).symm.trans hv)
  have hlast := hall _ (tagFirst_rearranges.lift flagDocument fun _ _ => rearranges_flagDocument)
  exact ⟨hfirst, hlast.2 _ (hread _ (by simp))⟩

end SchemaHistory

end

end SchemaEvolution
