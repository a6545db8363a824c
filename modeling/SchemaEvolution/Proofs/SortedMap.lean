import Mathlib.Data.List.Induction
import Mathlib.Data.List.Nodup
import SchemaEvolution.SortedMap

/-!
# What a map holds

A map is read by its keys. A list of entries with different keys says what its map holds.
-/

namespace SchemaEvolution.SortedMap

variable {α : Type} {key : String} {value : α} {es : List (String × α)}

theorem find?_insertEntry {k : String} :
    (insertEntry key value es).find? (·.1 == k)
      = if k = key then some (key, value) else es.find? (·.1 == k) := by
  induction es with
  | nil =>
    by_cases hk : k = key
    · simp [insertEntry, hk]
    · simp [insertEntry, hk, Ne.symm hk]
  | cons e es ih =>
    rw [insertEntry]
    by_cases hk : k = key
    · subst hk
      rw [if_pos rfl] at ih ⊢
      split
      · simp
      · split
        · simp
        · next hne => rw [List.find?_cons_of_neg (by simpa using Ne.symm hne), ih]
    · rw [if_neg hk] at ih ⊢
      split
      · rw [List.find?_cons_of_neg (by simpa using Ne.symm hk)]
      · split
        · next heq =>
          -- the entry that is replaced has the same key, so it is not the one looked for
          rw [List.find?_cons_of_neg (by simpa using Ne.symm hk),
            List.find?_cons_of_neg (by rw [← heq]; simpa using Ne.symm hk)]
        · rw [List.find?_cons, List.find?_cons, ih]

theorem get?_insert {m : SortedMap α} {k : String} :
    (m.insert key value).get? k = if k = key then some value else m.get? k := by
  unfold get? insert
  rw [find?_insertEntry]
  split <;> rfl

theorem get?_ofList_append {e : String × α} {k : String} :
    (ofList (es ++ [e])).get? k = if k = e.1 then some e.2 else (ofList es).get? k := by
  rw [ofList, List.foldl_append]
  exact get?_insert

/-- Every entry of the list is found by its key, when the keys are different. -/
theorem get?_ofList (hn : (es.map (·.1)).Nodup) {k : String} :
    (ofList es).get? k = (es.find? (·.1 == k)).map (·.2) := by
  induction es using List.reverseRecOn with
  | nil => rfl
  | append_singleton es e ih =>
    rw [List.map_append, List.nodup_append] at hn
    rw [get?_ofList_append, ih hn.1, List.find?_append]
    split
    · next hk =>
      have hnone : es.find? (·.1 == k) = none := by
        refine List.find?_eq_none.mpr fun f hf => ?_
        have := hn.2.2 f.1 (List.mem_map_of_mem hf) e.1 (by simp)
        simpa [hk] using this
      rw [hnone, hk]
      simp
    · next hk => simp [Ne.symm hk]

/-- A key occurs once in the listing of a map. -/
theorem nodup_keys (m : SortedMap α) : (m.entries.map (·.1)).Nodup :=
  (List.pairwise_map.mpr m.sorted).imp fun h he => absurd (he ▸ h) (String.lt_irrefl _)

theorem mem_entries_iff {m : SortedMap α} {e : String × α} :
    e ∈ m.entries ↔ m.get? e.1 = some e.2 := by
  constructor
  · intro he
    obtain ⟨f, hf⟩ := Option.isSome_iff_exists.mp
      (List.find?_isSome.mpr ⟨e, he, beq_self_eq_true e.1⟩ :
        (m.entries.find? (·.1 == e.1)).isSome = true)
    have hkey : f.1 = e.1 := by simpa using List.find?_some hf
    have heq : f = e := List.inj_on_of_nodup_map m.nodup_keys (List.mem_of_find?_eq_some hf) he hkey
    rw [get?, hf, heq]
    rfl
  · intro he
    obtain ⟨f, hf, hvalue⟩ := Option.map_eq_some_iff.mp he
    have hkey : f.1 = e.1 := by simpa using List.find?_some hf
    obtain rfl : f = e := Prod.ext hkey hvalue
    exact List.mem_of_find?_eq_some hf

/-- Maps that say the same at every key are the same. -/
theorem ext_get? {m n : SortedMap α} (h : ∀ k, m.get? k = n.get? k) : m = n := by
  have hperm : m.entries.Perm n.entries :=
    (List.perm_ext_iff_of_nodup (m.nodup_keys.of_map _) (n.nodup_keys.of_map _)).mpr fun e => by
      rw [mem_entries_iff, mem_entries_iff, h]
  exact ext (hperm.eq_of_pairwise
    (fun a b _ _ hab hba => absurd (String.lt_trans hab hba) (String.lt_irrefl _))
    m.sorted n.sorted)

/-- A map is made of its listing. -/
theorem ofList_entries (m : SortedMap α) : ofList m.entries = m :=
  ext_get? fun k => by rw [get?_ofList m.nodup_keys, get?]

theorem mem_keys_iff {m : SortedMap α} {k : String} :
    k ∈ m.entries.map (·.1) ↔ (m.get? k).isSome = true := by
  simp [get?, List.find?_isSome]

end SchemaEvolution.SortedMap
