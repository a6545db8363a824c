/-!
# Maps in the order of their keys

A map from strings is kept as a list of entries whose keys ascend strictly, so two maps with the
same entries are equal, and listing a map is listing it in order.
-/

namespace SchemaEvolution

/-- A map from strings, in the order of its keys. -/
structure SortedMap (α : Type u) where
  entries : List (String × α)
  sorted : entries.Pairwise (·.1 < ·.1)

namespace SortedMap

variable {α : Type u}

@[ext] theorem ext {m n : SortedMap α} (h : m.entries = n.entries) : m = n := by
  cases m
  cases n
  cases h
  rfl

instance [DecidableEq α] : DecidableEq (SortedMap α) := fun m n =>
  decidable_of_iff (m.entries = n.entries) ⟨ext, fun h => h ▸ rfl⟩

/-- The map without entries. -/
def empty : SortedMap α := ⟨[], .nil⟩

instance : Inhabited (SortedMap α) := ⟨empty⟩

/-- The value at a key. -/
def get? (m : SortedMap α) (key : String) : Option α :=
  (m.entries.find? (·.1 == key)).map (·.2)

/-- Puts an entry where it belongs, in the place of one with the same key. -/
def insertEntry (key : String) (value : α) : List (String × α) → List (String × α)
  | [] => [(key, value)]
  | e :: es =>
    if key < e.1 then (key, value) :: e :: es
    else if key = e.1 then (key, value) :: es
    else e :: insertEntry key value es

theorem mem_insertEntry {key : String} {value : α} {e : String × α} {es : List (String × α)}
    (h : e ∈ insertEntry key value es) : e = (key, value) ∨ e ∈ es := by
  induction es with
  | nil => simpa [insertEntry] using h
  | cons f fs ih =>
    rw [insertEntry] at h
    split at h
    · simpa using h
    · split at h
      · rcases List.mem_cons.mp h with h | h
        · exact Or.inl h
        · exact Or.inr (List.mem_cons_of_mem _ h)
      · rcases List.mem_cons.mp h with h | h
        · exact Or.inr (h ▸ List.mem_cons_self)
        · rcases ih h with h | h
          · exact Or.inl h
          · exact Or.inr (List.mem_cons_of_mem _ h)

theorem pairwise_insertEntry {key : String} {value : α} {es : List (String × α)}
    (h : es.Pairwise (·.1 < ·.1)) : (insertEntry key value es).Pairwise (·.1 < ·.1) := by
  induction es with
  | nil => simp [insertEntry]
  | cons e es ih =>
    rw [List.pairwise_cons] at h
    rw [insertEntry]
    split
    · next hlt =>
      refine List.pairwise_cons.mpr ⟨fun f hf => ?_, List.pairwise_cons.mpr h⟩
      rcases List.mem_cons.mp hf with rfl | hf
      · exact hlt
      · exact String.lt_trans hlt (h.1 f hf)
    · split
      · next heq =>
        refine List.pairwise_cons.mpr ⟨fun f hf => ?_, h.2⟩
        show key < f.1
        rw [heq]
        exact h.1 f hf
      · next hlt hne =>
        refine List.pairwise_cons.mpr ⟨fun f hf => ?_, ih h.2⟩
        rcases mem_insertEntry hf with rfl | hf
        · rcases Std.le_total (a := e.1) (b := key) with hle | hle
          · exact Std.lt_of_le_of_ne hle (Ne.symm hne)
          · exact absurd (Std.lt_of_le_of_ne hle hne) hlt
        · exact h.1 f hf

/-- Puts a value at a key, in the place of the one that is there. -/
def insert (m : SortedMap α) (key : String) (value : α) : SortedMap α :=
  ⟨insertEntry key value m.entries, pairwise_insertEntry m.sorted⟩

/-- The map of a list of entries. When a key occurs more than once, the last one counts. -/
def ofList (es : List (String × α)) : SortedMap α :=
  es.foldl (fun m e => m.insert e.1 e.2) empty

end SortedMap

end SchemaEvolution
