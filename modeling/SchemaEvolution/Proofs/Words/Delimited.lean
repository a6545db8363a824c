import SchemaEvolution.Dialect.Basic

/-!
# Quoted words end where they were written to end

Names and values come from outside, and they are written into statements between quote characters.
The reader of a statement knows only the characters: it stops at the first quote character that is
not doubled. What it takes off the front of a text is then exactly a quoted word: every such word is
read back, whatever follows it, and nothing else is read at all (`scan_eq_some_iff`). So a word is
told by its quoted form, and none can end its own quoting.
-/

namespace SchemaEvolution

namespace Text.Quoted

variable {q c : Char} {cs s t : List Char} {read : Option (List Char × List Char)}

/-- A reader that puts a character before what it reads further on. -/
theorem map_cons_eq_some :
    read.map (fun p => (c :: p.1, p.2)) = some (s, t) ↔
      ∃ s', read = some (s', t) ∧ s = c :: s' := by
  rw [Option.map_eq_some_iff]
  constructor
  · rintro ⟨⟨s', t'⟩, hread, heq⟩
    cases heq
    exact ⟨s', hread, rfl⟩
  · rintro ⟨s', hread, rfl⟩
    exact ⟨(s', t), hread, rfl⟩

/-- The reader stops at a quote character that no other follows, and what it has read by then, with
every quote character doubled again, is what stood before it. -/
theorem eq_of_body (h : body q cs = some (s, t)) :
    cs = double q s ++ q :: t ∧ t.head? ≠ some q := by
  fun_induction body q cs generalizing s with
  | case1 => simp at h
  | case2 =>
    cases h
    simp [double]
  | case3 => simp at h
  | case4 r ih =>
    obtain ⟨s', hbody, rfl⟩ := map_cons_eq_some.mp h
    obtain ⟨hr, ht⟩ := ih hbody
    exact ⟨by simp [double, hr], ht⟩
  | case5 d r hd =>
    cases h
    simp [double, hd]
  | case6 c d r hc ih =>
    obtain ⟨s', hbody, rfl⟩ := map_cons_eq_some.mp h
    obtain ⟨hr, ht⟩ := ih hbody
    exact ⟨by simp [double, hc, hr], ht⟩

/-- What the reader accepts are the quoted texts, each up to its own end. -/
theorem scan_eq_some_iff :
    scan q cs = some (s, t) ↔ cs = quote q s ++ t ∧ t.head? ≠ some q := by
  constructor
  · intro h
    cases cs with
    | nil => simp [scan] at h
    | cons c r =>
      rw [scan] at h
      split at h
      · next hc =>
        obtain ⟨hr, ht⟩ := eq_of_body h
        exact ⟨by simp [quote, hc, hr], ht⟩
      · cases h
  · rintro ⟨rfl, ht⟩
    exact scan_quote q s t ht

end Text.Quoted

open Text.Quoted (scan scan_eq_some_iff)

/-- A way to write strings between quote characters that leaves no doubt about what was written. -/
structure DelimitsItself (q : Char) (write : String → String) : Prop where
  /-- The reader gives the string back and leaves exactly what follows. -/
  scan_write : ∀ (s : String) (rest : List Char), rest.head? ≠ some q →
    scan q ((write s).toList ++ rest) = some (s.toList, rest)
  /-- Whatever the reader takes was written for the string that it gives. -/
  eq_of_scan : ∀ (cs s rest : List Char), scan q cs = some (s, rest) →
    cs = (write (String.ofList s)).toList ++ rest ∧ rest.head? ≠ some q
  /-- No string ends its own quoting: a text begins with one written string at most. -/
  append_inj : ∀ (s s' : String) (rest rest' : List Char),
    rest.head? ≠ some q → rest'.head? ≠ some q →
      (write s).toList ++ rest = (write s').toList ++ rest' → s = s' ∧ rest = rest'
  injective : Function.Injective write

theorem delimitsItself_string (q : Char) : DelimitsItself q (Text.Quoted.string q) := by
  have hscan : ∀ (s : String) (rest : List Char), rest.head? ≠ some q →
      scan q ((Text.Quoted.string q s).toList ++ rest) = some (s.toList, rest) :=
    fun s rest hrest => by
      rw [Text.Quoted.toList_string]
      exact scan_eq_some_iff.mpr ⟨rfl, hrest⟩
  have hinj : ∀ (s s' : String) (rest rest' : List Char),
      rest.head? ≠ some q → rest'.head? ≠ some q →
        (Text.Quoted.string q s).toList ++ rest = (Text.Quoted.string q s').toList ++ rest' →
          s = s' ∧ rest = rest' := by
    intro s s' rest rest' hrest hrest' heq
    have hread := hscan s rest hrest
    rw [heq, hscan s' rest' hrest'] at hread
    obtain ⟨hs, rfl⟩ := Prod.mk.inj (Option.some.inj hread)
    exact ⟨String.toList_injective hs.symm, rfl⟩
  refine ⟨hscan, ?_, hinj, ?_⟩
  · intro cs s rest h
    rw [Text.Quoted.toList_string, String.toList_ofList]
    exact scan_eq_some_iff.mp h
  · intro s s' heq
    exact (hinj s s' [] [] (by simp) (by simp) (by rw [heq])).1

namespace Dialect

/-- Identifiers, in the quote character of the dialect, and literals delimit themselves. -/
theorem words_delimit_themselves (d : Dialect) :
    DelimitsItself d.quoteMark d.quote ∧ DelimitsItself '\'' literal :=
  ⟨delimitsItself_string d.quoteMark, delimitsItself_string '\''⟩

/-- A name that looks like the end of a name and a value made of quote characters. -/
theorem words_delimit_themselves_hostileWords :
    scan '"' ((quote .sqlite "a\"\" (\"b").toList ++ " TEXT".toList)
        = some ("a\"\" (\"b".toList, " TEXT".toList) ∧
      scan '\'' ((literal "'''").toList ++ ")".toList) = some ("'''".toList, ")".toList) :=
  ⟨(words_delimit_themselves .sqlite).1.scan_write _ _ (by decide),
    (words_delimit_themselves .sqlite).2.scan_write _ _ (by decide)⟩

end Dialect

end SchemaEvolution
