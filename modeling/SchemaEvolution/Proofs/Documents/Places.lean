import Mathlib.Logic.Relation
import SchemaEvolution.Proofs.Documents.Faithful

/-!
# Rearranged values

In a JSON document the order of the members of an object says nothing, and a reader that ignores
what it does not know accepts further members. A value is rearranged when the members of an object
in it are permuted, or when a further member is inserted into an object that stands for a record.
Which names are free there depends on where the object stands: a `Place` says what a value at a
place stands for, and so what its parts stand for.

A decoder is steady when it makes the same of all arrangements of a value that it accepts.
-/

namespace SchemaEvolution.Json

/-! ## Places -/

/-- What the value at a place of a document stands for. -/
inductive Place where
  /-- Something without fields, or something that is ignored. -/
  | plain
  | list (element : Place)
  | record (fields : List (String × Place))
  /-- A record whose fields depend on the member `tag`. -/
  | tagged (tag : String) (cases : List (String × List (String × Place)))

/-- The tag of a tagged object, or of an array that begins with it. -/
def tag? (tag : String) : Json → Option String
  | .object ms =>
    match ms.lookup tag with
    | some (.string s) => some s
    | _ => none
  | .array (.string s :: _) => some s
  | _ => none

namespace Place

/-- The fields of what a value stands for, if it stands for a record. -/
def fields? : Place → Json → Option (List (String × Place))
  | .record fields, _ => some fields
  | .tagged tag cases, v =>
    ((v.tag? tag).bind fun name => cases.lookup name).map fun fields => (tag, .plain) :: fields
  | _, _ => none

/-- The place of the member with a key. -/
def member (p : Place) (v : Json) (key : String) : Place :=
  ((p.fields? v).bind fun fields => fields.lookup key).getD .plain

/-- The place of the element after `n` others. A record may be an array of its fields. -/
def element (p : Place) (v : Json) (n : Nat) : Place :=
  match p with
  | .list q => q
  | p => (((p.fields? v).bind fun fields => fields[n]?).map (·.2)).getD .plain

end Place

/-! ## Rearranging a value -/

/-- A string, a boolean or `null`: what a further member may hold. -/
def isFlag : Json → Bool
  | .string _ | .bool _ | .null => true
  | _ => false

/-- One rearrangement, somewhere in the value at a place. A value that cannot be held is an
arrangement of any other: nobody looks at what it begins as without refusing it. -/
inductive Rearranges : Place → Json → Json → Prop where
  /-- The members of an object are permuted. -/
  | permute {p : Place} {ms ms' : Record} (h : ms.Perm ms') :
    Rearranges p (.object ms) (.object ms')
  /-- A member that is neither a field nor there already is inserted into a record. -/
  | insert {p : Place} {ms : Record} {fields : List (String × Place)} {key : String} {v : Json}
      (hfields : p.fields? (.object ms) = some fields) (hfield : key ∉ fields.map (·.1))
      (hnew : key ∉ ms.map (·.1)) (hv : v.isFlag = true) :
      Rearranges p (.object ms) (.object ((key, v) :: ms))
  /-- The value of a member is rearranged. -/
  | member {p : Place} {ms ms' : Record} {key : String} {v w : Json}
      (h : Rearranges (p.member (.object (ms ++ (key, v) :: ms')) key) v w) :
      Rearranges p (.object (ms ++ (key, v) :: ms')) (.object (ms ++ (key, w) :: ms'))
  /-- An element of an array is rearranged. -/
  | element {p : Place} {vs vs' : List Json} {v w : Json}
      (h : Rearranges (p.element (.array (vs ++ v :: vs')) vs.length) v w) :
      Rearranges p (.array (vs ++ v :: vs')) (.array (vs ++ w :: vs'))
  | unreadable {p : Place} (v w : Json) : Rearranges p (.unreadable v) (.unreadable w)

theorem isFlag_readable {v : Json} (h : v.isFlag = true) : v.readable = true := by
  cases v <;> first | rfl | cases h

/-- What can be held can be held in every arrangement. -/
theorem Rearranges.readable {p : Place} {v w : Json} (h : Rearranges p v w)
    (hv : v.readable = true) : w.readable = true := by
  induction h with
  | permute hperm =>
    simp only [Json.readable, readableMembers_iff] at hv ⊢
    exact fun m hm => hv m (hperm.mem_iff.mpr hm)
  | insert _ _ _ hflag =>
    simp only [Json.readable, readableMembers_iff] at hv ⊢
    exact List.forall_mem_cons.mpr ⟨isFlag_readable hflag, hv⟩
  | member _ ih =>
    simp only [Json.readable, readableMembers_iff, List.forall_mem_append,
      List.forall_mem_cons] at hv ⊢
    exact ⟨hv.1, ih hv.2.1, hv.2.2⟩
  | element _ ih =>
    simp only [Json.readable, readableElements_iff, List.forall_mem_append,
      List.forall_mem_cons] at hv ⊢
    exact ⟨hv.1, ih hv.2.1, hv.2.2⟩
  | unreadable => cases hv

/-- A decoder that makes the same of all arrangements of a value at a place, if it accepts it. -/
def Steady {α : Type} (p : Place) (decode : Json → Except ReadError α) : Prop :=
  ∀ ⦃v w : Json⦄ ⦃a : α⦄, Rearranges p v w → decode v = .ok a → decode w = .ok a

end SchemaEvolution.Json
