import SchemaEvolution.Json.Decoder
import SchemaEvolution.Proofs.Json.Written
import SchemaEvolution.Proofs.Walk.ForEach

/-!
# Faithful encodings

An encoding is faithful to a decoder when it makes plain values and the decoder finds in each of
them what it was made from. Lists of what is encoded faithfully are encoded faithfully; for records
it is enough to look up each field in the members that were written.
-/

namespace SchemaEvolution.Json

/-! ## Plain values -/

@[simp] theorem plain_string {s : String} : Plain (.string s) := .string s

@[simp] theorem plain_bool {b : Bool} : Plain (.bool b) := .bool b

theorem plain_natural {n : Nat} (hn : n < UInt64.size) : Plain (.int n) :=
  .int (by rwa [Int.natAbs_natCast])

@[simp] theorem plain_array_iff {vs : List Json} : Plain (.array vs) ↔ ∀ v ∈ vs, Plain v :=
  ⟨fun h => by cases h with | array hvs => exact hvs, .array⟩

@[simp] theorem plain_object_iff {ms : List (String × Json)} :
    Plain (.object ms) ↔ ∀ m ∈ ms, Plain m.2 :=
  ⟨fun h => by cases h with | object hms => exact hms, .object⟩

@[simp] theorem plain_strings {ss : List String} : Plain (.strings ss) := by
  simp [strings]

theorem readableElements_iff {vs : List Json} :
    readableElements vs = true ↔ ∀ v ∈ vs, v.readable = true := by
  induction vs with
  | nil => simp [readableElements]
  | cons v vs ih => simp [readableElements, ih]

theorem readableMembers_iff {ms : List (String × Json)} :
    readableMembers ms = true ↔ ∀ m ∈ ms, m.2.readable = true := by
  induction ms with
  | nil => simp [readableMembers]
  | cons m ms ih =>
    obtain ⟨k, v⟩ := m
    simp [readableMembers, ih]

/-- A plain value can be held. -/
theorem Plain.readable {v : Json} (h : Plain v) : v.readable = true := by
  induction h with
  | null | bool | int | string => rfl
  | array _ ih => rw [Json.readable, readableElements_iff.mpr ih]
  | object _ ih => rw [Json.readable, readableMembers_iff.mpr ih]

/-! ## Faithful encodings -/

/-- What is encoded is plain, and it is decoded to what it was encoded from. -/
structure Faithful {α : Type} (encode : α → Json) (decode : Json → Except ReadError α) : Prop where
  plain : ∀ a, Plain (encode a)
  decode_encode : ∀ a, decode (encode a) = .ok a

namespace Faithful

variable {α : Type} {encode : α → Json} {decode : Json → Except ReadError α}

theorem mapM_eq (h : Faithful encode decode) (as : List α) :
    (as.map encode).mapM decode = .ok as := by
  induction as with
  | nil => rfl
  | cons a as ih =>
    rw [List.map_cons, Except.mapM_cons_ok]
    exact ⟨a, as, h.decode_encode a, ih, rfl⟩

theorem list (h : Faithful encode decode) :
    Faithful (fun as : List α => .array (as.map encode)) (asList decode) where
  plain as := by simpa using fun a _ => h.plain a
  decode_encode as := h.mapM_eq as

theorem text : Faithful Json.string asString where
  plain _ := plain_string
  decode_encode _ := rfl

/-- The members of an object whose keys are arbitrary. -/
theorem members (h : Faithful encode decode) :
    Faithful (fun ms : List (String × α) => .object (ms.map fun m => (m.1, encode m.2)))
      (asMembers decode) where
  plain ms := .object fun m hm => by
    obtain ⟨e, -, rfl⟩ := List.mem_map.mp hm
    exact h.plain e.2
  decode_encode ms := by
    rw [asMembers]
    induction ms with
    | nil => rfl
    | cons m ms ih =>
      rw [List.map_cons, Except.mapM_cons_ok]
      refine ⟨m, ms, ?_, ih, rfl⟩
      rw [h.decode_encode m.2]
      rfl

end Faithful

/-! ## Results -/

section

variable {ε α β : Type} {a : α}

@[simp] theorem ok_bind {f : α → Except ε β} : (Except.ok a >>= f) = f a := rfl

@[simp] theorem map_ok {f : α → β} : f <$> (Except.ok a : Except ε α) = .ok (f a) := rfl

@[simp] theorem pure_eq_ok : (pure a : Except ε α) = .ok a := rfl

end

/-! ## Scalars -/

@[simp] theorem asString_string {s : String} : asString (.string s) = .ok s := rfl

@[simp] theorem asBool_bool {b : Bool} : asBool (.bool b) = .ok b := rfl

theorem asNat_natCast {bound n : Nat} (hn : n < bound) : asNat bound (.int n) = .ok n := by
  rw [asNat, if_pos ⟨Int.natCast_nonneg n, Int.ofNat_lt.mpr hn⟩, Int.toNat_natCast]

/-! ## Fields of a record -/

@[simp] theorem asRecord_object {α : Type} {reading : Reading} {names : List String}
    {f : Record → Except ReadError α} {r : Record} :
    asRecord reading names f (.object r) = f r := rfl

namespace Record

variable {α : Type} {r : Record} {name k : String} {v : Json} {f : Json → Except ReadError α}

theorem field?_cons_self (h : name ∉ r.map (·.1)) :
    field? ((name, v) :: r) name = .ok (some v) := by
  have hnone : r.filter (·.1 == name) = [] :=
    List.filter_eq_nil_iff.mpr fun m hm => by
      simpa using fun he => h (List.mem_map.mpr ⟨m, hm, he⟩)
  simp [field?, hnone]

theorem field?_cons_of_ne (h : k ≠ name) : field? ((k, v) :: r) name = field? r name := by
  simp [field?, h]

/-- A field that occurs once is found. -/
@[simp] theorem required_cons_self (h : name ∉ r.map (·.1)) :
    required ((name, v) :: r) name f = f v := by
  rw [required, field?_cons_self h]

@[simp] theorem required_cons_of_ne (h : k ≠ name) :
    required ((k, v) :: r) name f = required r name f := by
  rw [required, field?_cons_of_ne h, required]

@[simp] theorem withDefault_cons_self {default : α} (h : name ∉ r.map (·.1)) :
    withDefault ((name, v) :: r) name default f = f v := by
  rw [withDefault, field?_cons_self h]

@[simp] theorem withDefault_cons_of_ne {default : α} (h : k ≠ name) :
    withDefault ((k, v) :: r) name default f = withDefault r name default f := by
  rw [withDefault, field?_cons_of_ne h, withDefault]

/-- A field that does not occur has its default. -/
@[simp] theorem withDefault_nil {default : α} : withDefault [] name default f = .ok default := rfl

end Record

/-! ## Tags -/

variable {α : Type} {name : String} {v : Json} {ms : Record} {a : α}
  {f : Json → Except ReadError α}

theorem takeField_cons (hv : f v = .ok a) (hname : name ∉ ms.map (·.1))
    (hms : ∀ m ∈ ms, Plain m.2) : takeField name f ((name, v) :: ms) = .ok (a, ms) := by
  have hrest : ((name, v) :: ms).filter (·.1 != name) = ms := by
    rw [List.filter_cons_of_neg (by simp), List.filter_eq_self]
    intro m hm
    simpa using fun he => hname (List.mem_map.mpr ⟨m, hm, he⟩)
  have hreadable : readableMembers ms = true :=
    readableMembers_iff.mpr fun m hm => (hms m hm).readable
  rw [takeField, hrest, if_pos hreadable, Record.required_cons_self hname, hv]
  rfl

/-- An object that begins with its tag. -/
theorem asTagged_cons {tag : String} {names : List String} (hname : name ∈ names)
    (htag : tag ∉ ms.map (·.1)) (hms : ∀ m ∈ ms, Plain m.2) :
    asTagged tag names (.object ((tag, .string name) :: ms)) = .ok (name, .object ms) := by
  have honeOf : asOneOf names (.string name) = .ok name :=
    Except.bind_ok.mpr ⟨name, rfl, if_pos (List.contains_iff_mem.mpr hname)⟩
  rw [asTagged, takeField_cons honeOf htag hms]
  rfl

end SchemaEvolution.Json
