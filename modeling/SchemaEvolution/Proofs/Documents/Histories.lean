import SchemaEvolution.Proofs.Documents.Faithful
import SchemaEvolution.Schema.Encoder
import SchemaEvolution.Schema.Form

/-!
# The encoding of histories is faithful

Part by part, from the types of columns up to the whole history: what the encoder writes is what the
decoder reads. The parts that may stand in a tagged object are read in either way, straight off the
text or held.
-/

namespace SchemaEvolution

open Json (Faithful Plain ReadError Reading Record)

theorem decodeNames_faithful : Faithful Json.strings decodeNames := Faithful.text.list

/-! ## Columns -/

namespace ColumnType

theorem plain_encode (type : ColumnType) : Plain type.encode := by
  induction type with
  | decimal precision scale =>
    have hprecision : Plain (.int precision.toNat) :=
      Json.plain_natural (Nat.lt_trans precision.toNat_lt (by decide))
    have hscale : Plain (.int scale.toNat) :=
      Json.plain_natural (Nat.lt_trans scale.toNat_lt (by decide))
    simp [encode, hprecision, hscale]
  | char length | varchar length =>
    have hlength : Plain (.int length.toNat) :=
      Json.plain_natural (Nat.lt_trans length.toNat_lt (by decide))
    simp [encode, hlength]
  | array element ih => simpa [encode] using ih
  | _ => simp [encode]

theorem decodeDecimal_encode (reading : Reading) (precision scale : UInt8) :
    decodeDecimal reading (.array [.int precision.toNat, .int scale.toNat])
      = .ok (.decimal precision scale) := by
  have hprecision := Json.asNat_natCast precision.toNat_lt
  have hscale := Json.asNat_natCast scale.toNat_lt
  rw [decodeDecimal, Except.bind_ok]
  refine ⟨_, hprecision, Except.bind_ok.mpr ⟨_, hscale, ?_⟩⟩
  rw [UInt8.ofNat_toNat, UInt8.ofNat_toNat]
  rfl

/-! The content stays a variable here, so that the bound of a length is never computed. -/

theorem decode_char {reading : Reading} {content : Json} {n : Nat}
    (h : content.asNat UInt32.size = .ok n) :
    decode reading (.object [("char", content)]) = .ok (.char (UInt32.ofNat n)) := by
  rw [decode, h]
  rfl

theorem decode_varchar {reading : Reading} {content : Json} {n : Nat}
    (h : content.asNat UInt32.size = .ok n) :
    decode reading (.object [("varchar", content)]) = .ok (.varchar (UInt32.ofNat n)) := by
  rw [decode, h]
  rfl

theorem decode_encode (reading : Reading) (type : ColumnType) :
    decode reading type.encode = .ok type := by
  induction type with
  | decimal precision scale =>
    simp only [encode, decode, decodeDecimal_encode]
    rfl
  | char length => rw [encode, decode_char (Json.asNat_natCast length.toNat_lt), UInt32.ofNat_toNat]
  | varchar length =>
    rw [encode, decode_varchar (Json.asNat_natCast length.toNat_lt), UInt32.ofNat_toNat]
  | array element ih =>
    simp only [encode, decode, ih]
    rfl
  | _ => rfl

theorem faithful (reading : Reading) : Faithful encode (decode reading) :=
  ⟨plain_encode, decode_encode reading⟩

end ColumnType

namespace ColumnShape

theorem plain_members (shape : ColumnShape) : ∀ m ∈ shape.members, Plain m.2 := by
  have htype := shape.type.plain_encode
  cases hdefault : shape.default <;> simp [members, Json.optionalMember, hdefault, htype]

theorem ofRecord_members (reading : Reading) (shape : ColumnShape) :
    ofRecord reading shape.members = .ok shape := by
  obtain ⟨type, nullable, default⟩ := shape
  have htype := type.decode_encode reading
  cases default <;>
    simp [ofRecord, members, Json.optionalMember, Json.asOption, Except.map, htype]

theorem faithful (reading : Reading) : Faithful encode (decode reading) where
  plain shape := .object shape.plain_members
  decode_encode := ofRecord_members reading

end ColumnShape

theorem Property.faithful : Faithful encode decode where
  plain p := by simpa [encode] using p.shape.plain_members
  decode_encode p := by
    have hname : "name" ∉ p.shape.members.map (·.1) := by
      cases hdefault : p.shape.default <;>
        simp [ColumnShape.members, Json.optionalMember, hdefault]
    have htake := Json.takeField_cons (f := Json.asString) (v := .string p.name) rfl hname
      p.shape.plain_members
    simp [encode, decode, htake, ColumnShape.ofRecord_members]

/-! ## Edits -/

theorem PropertyEdit.faithful : Faithful encode decode where
  plain e := by
    cases e with
    | add name shape | retype name shape =>
      simpa [encode] using (ColumnShape.faithful .held).plain shape
    | rename name new | remove name => simp [encode]
  decode_encode e := by
    cases e with
    | add name shape | retype name shape =>
      have hshape := (ColumnShape.faithful .held).decode_encode shape
      have hplain := (ColumnShape.faithful .held).plain shape
      rw [encode, decode, Json.asTagged_cons (by decide) (by simp) (by simpa using hplain)]
      simp [hshape]
    | rename name new | remove name =>
      rw [encode, decode, Json.asTagged_cons (by decide) (by simp) (by simp)]
      simp

theorem KeyKind.decodeName_text (kind : KeyKind) :
    decodeName .held KeyKind.ofName? (.string kind.text) = .ok kind := by
  cases kind <;> rfl

theorem ConstraintEdit.faithful : Faithful encode decode where
  plain e := by cases e <;> simp [encode]
  decode_encode e := by
    have hnames := decodeNames_faithful.decode_encode
    cases e with
    | addPrimaryKey name columns =>
      rw [encode, decode, Json.asTagged_cons (by decide) (by simp) (by simp)]
      simp [hnames]
    | addForeignKey name column references referencedColumn =>
      rw [encode, decode, Json.asTagged_cons (by decide) (by simp) (by simp)]
      simp
    | remove kind name =>
      rw [encode, decode, Json.asTagged_cons (by decide) (by simp) (by simp)]
      simp [kind.decodeName_text]

theorem IndexKind.decodeName_text (kind : IndexKind) :
    decodeName .held IndexKind.ofName? (.string kind.text) = .ok kind := by
  cases kind <;> rfl

theorem IndexEdit.faithful : Faithful encode decode where
  plain e := by cases e <;> simp [encode]
  decode_encode e := by
    have hnames := decodeNames_faithful.decode_encode
    cases e with
    | add kind name columns | remove kind name =>
      rw [encode, decode, Json.asTagged_cons (by decide) (by simp) (by simp)]
      simp [kind.decodeName_text, hnames]

/-! ## Tables -/

theorem TableStep.faithful (reading : Reading) : Faithful encode (decode reading) where
  plain s := by
    have hproperties := PropertyEdit.faithful.list.plain s.properties
    have hconstraints := ConstraintEdit.faithful.list.plain s.constraints
    have hindices := IndexEdit.faithful.list.plain s.indices
    cases hname : s.name <;>
      simp only [encode, Json.optionalMember, hname] <;>
      simp [-Json.plain_array_iff, hproperties, hconstraints, hindices]
  decode_encode s := by
    obtain ⟨version, name, properties, constraints, indices⟩ := s
    have hproperties := PropertyEdit.faithful.list.decode_encode properties
    have hconstraints := ConstraintEdit.faithful.list.decode_encode constraints
    have hindices := IndexEdit.faithful.list.decode_encode indices
    cases name <;>
      simp [encode, decode, Json.optionalMember, Json.asOption, Except.map, hproperties,
        hconstraints, hindices]

theorem TableHistory.faithful (reading : Reading) : Faithful encode (decode reading) where
  plain t := by simpa [encode] using fun s _ => (TableStep.faithful reading).plain s
  decode_encode t := by
    have hsteps := (TableStep.faithful reading).list.decode_encode t.steps
    simp [encode, decode, hsteps]

/-! ## Enums and functions -/

theorem EnumStep.faithful (reading : Reading) : Faithful encode (decode reading) where
  plain s := by simp [encode]
  decode_encode s := by
    have hvalues := decodeNames_faithful.decode_encode s.values
    simp [encode, decode, hvalues]

theorem EnumHistory.faithful (reading : Reading) : Faithful encode (decode reading) where
  plain e := by simpa [encode] using fun s _ => (EnumStep.faithful reading).plain s
  decode_encode e := by
    have hsteps := (EnumStep.faithful reading).list.decode_encode e.steps
    simp [encode, decode, hsteps]

theorem FunctionStep.faithful (reading : Reading) : Faithful encode (decode reading) where
  plain s := by simp [encode, ColumnType.plain_encode]
  decode_encode s := by
    have hparameters := (ColumnType.faithful reading).list.decode_encode s.parameters
    simp [encode, decode, hparameters, s.returns.decode_encode]

theorem FunctionHistory.faithful (reading : Reading) : Faithful encode (decode reading) where
  plain f := by simpa [encode] using fun s _ => (FunctionStep.faithful reading).plain s
  decode_encode f := by
    have hsteps := (FunctionStep.faithful reading).list.decode_encode f.steps
    simp [encode, decode, hsteps]

/-! ## The whole history -/

theorem SchemaHistory.faithful (reading : Reading) : Faithful encode (decode reading) where
  plain h := by
    have htables := (TableHistory.faithful reading).list.plain h.tables
    have henums := (EnumHistory.faithful reading).list.plain h.enums
    have hfunctions := (FunctionHistory.faithful reading).list.plain h.functions
    refine .object ?_
    simp only [List.forall_mem_cons]
    exact ⟨htables, henums, hfunctions, fun _ hm => nomatch hm⟩
  decode_encode h := by
    have htables := (TableHistory.faithful reading).list.decode_encode h.tables
    have henums := (EnumHistory.faithful reading).list.decode_encode h.enums
    have hfunctions := (FunctionHistory.faithful reading).list.decode_encode h.functions
    simp [encode, decode, htables, henums, hfunctions]

end SchemaEvolution
