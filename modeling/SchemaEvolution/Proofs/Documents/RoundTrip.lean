import SchemaEvolution.Changelog.Document
import SchemaEvolution.Proofs.Documents.Histories
import SchemaEvolution.Proofs.SortedMap

/-!
# Documents are read back

A history that is written on one line and a changelog that is written on many lines are read as what
they were written for, unless more arrays and objects are nested in the document than can be held.
Nothing is asked of a changelog: its tables may have any ids, and its entries need not fit together.
-/

namespace SchemaEvolution

open Json (Faithful Form ReadError Reading)

/-! ## Changelogs -/

theorem DescribedQuery.faithful (reading : Reading) : Faithful encode (decode reading) where
  plain q := by simp [encode]
  decode_encode q := by simp [encode, decode]

theorem VersionEntry.faithful (reading : Reading) : Faithful encode (decode reading) where
  plain e := by simpa [encode] using fun q _ => (DescribedQuery.faithful reading).plain q
  decode_encode e := by
    have hqueries := (DescribedQuery.faithful reading).list.decode_encode e.queries
    simp [encode, decode, hqueries]

theorem FinalTable.faithful (reading : Reading) : Faithful encode (decode reading) where
  plain t := by simpa [encode] using fun p _ => Property.faithful.plain p
  decode_encode t := by
    have hproperties := Property.faithful.list.decode_encode t.properties
    simp [encode, decode, hproperties]

theorem Changelog.faithful (reading : Reading) : Faithful encode (decode reading) where
  plain c := by
    have hversions := decodeNames_faithful.plain c.versions
    have htables := (FinalTable.faithful reading).members.plain c.tables.entries
    have hentries := (VersionEntry.faithful reading).list.plain
    refine .object ?_
    simp only [List.forall_mem_cons]
    exact ⟨hversions, htables, hentries _, hentries _, hentries _, fun _ hm => nomatch hm⟩
  decode_encode c := by
    have hversions := decodeNames_faithful.decode_encode c.versions
    have htables := (FinalTable.faithful reading).members.decode_encode c.tables.entries
    have hentries := (VersionEntry.faithful reading).list.decode_encode
    simp [encode, decode, hversions, htables, hentries, SortedMap.ofList_entries]

/-! ## Texts -/

theorem Json.Form.decode_of_ok {α : Type} {form : Form} {decode : Json → Except ReadError α}
    {v : Json} {a : α} (h : decode v = .ok a) : form.decode decode v = .ok a := by
  rw [Form.decode, h]

/-- Every history and every changelog is read back from its text as it is, unless the document is
nested too deeply to be held. -/
theorem documents_round_trip :
    (∀ h : SchemaHistory, h.encode.depth ≤ Json.maxDepth →
      SchemaHistory.ofText h.toText = .ok h) ∧
    (∀ c : Changelog, c.encode.depth ≤ Json.maxDepth → Changelog.ofText c.toText = .ok c) := by
  refine ⟨fun h hdepth => ?_, fun c hdepth => ?_⟩
  · have hfaithful := SchemaHistory.faithful .streamed
    rw [SchemaHistory.ofText, SchemaHistory.toText,
      Json.read_compact (hfaithful.plain h) hdepth]
    exact Json.Form.decode_of_ok (hfaithful.decode_encode h)
  · have hfaithful := Changelog.faithful .streamed
    rw [Changelog.ofText, Changelog.toText, Json.read_pretty (hfaithful.plain c) hdepth]
    exact Json.Form.decode_of_ok (hfaithful.decode_encode c)

/-- A history with every kind of edit, texts that must be escaped, and arrays of arrays. -/
def escapedNotes : SchemaHistory where
  tables := [
    { id := "notes \"1\""
      steps := [
        { version := "1\\"
          name := some "line\nfeed"
          properties := [.add "id" ⟨.bigSerial, false, none⟩,
            .add "tags" ⟨.array (.array (.varchar 4294967295)), true, none⟩,
            .add "rate" ⟨.decimal 255 0, false, some "\x00"⟩]
          constraints := [.addPrimaryKey "pk" ["id"], .addForeignKey "fk" "rate" "" "\t"]
          indices := [.add .unique "by rate" ["rate"]] },
        { version := ""
          properties := [.rename "rate" "\x1f", .retype "tags" ⟨.enum "mood\x7f", true, some ""⟩,
            .remove "id"]
          constraints := [.remove .foreign "fk"]
          indices := [.remove .plain "by rate"] }] },
    { id := "" }]
  enums := [⟨"mood", "Mood", [⟨"1", ["/", "é", "\x0c"]⟩]⟩]
  functions := [⟨"f", [⟨"1", [.char 0, .array .json], .dateTime, "\r\n\x08"⟩]⟩]

/-- A changelog that no history leads to: its entries are out of order and belong to no version. -/
def strayLog : Changelog where
  versions := ["2", "1"]
  tables := .ofList [("\n", ⟨"", [⟨"tags", ⟨.array .text, true, some "\x0b"⟩⟩]⟩), ("", ⟨"t", []⟩)]
  enumEntries := []
  functionEntries := [⟨"3", [⟨"\"", "SELECT '\\';"⟩]⟩, ⟨"3", []⟩]
  tableEntries := [⟨"", []⟩]

/-- Both are read back from their texts. -/
theorem documents_round_trip_escapedNotes :
    escapedNotes.encode.depth ≤ Json.maxDepth ∧
      SchemaHistory.ofText escapedNotes.toText = .ok escapedNotes ∧
      strayLog.encode.depth ≤ Json.maxDepth ∧
      Changelog.ofText strayLog.toText = .ok strayLog := by
  have hnotes : escapedNotes.encode.depth ≤ Json.maxDepth := by decide
  have hlog : strayLog.encode.depth ≤ Json.maxDepth := by decide
  exact ⟨hnotes, documents_round_trip.1 _ hnotes, hlog, documents_round_trip.2 _ hlog⟩

end SchemaEvolution
