import Mathlib.Data.List.Nodup
import Mathlib.Data.Nat.Find
import SchemaEvolution.Proofs.Walk.ForEach

/-!
# Operations and what is said of them

What a changelog has at a version comes from the operations of that version alone, once they are
described. Descriptions are given in turn, so what comes later has no part in what is given before.
-/

namespace SchemaEvolution

variable {d : Dialect} {taken : List String} {os os' : List Operation} {o : Operation}
  {versions : List String} {version : String}

/-! ## In turn -/

/-- Describes one operation, and says what is taken after it. -/
def describeNext (d : Dialect) (taken : List String) (o : Operation) :
    VersionEntry × List String :=
  if o.statements.isEmpty then (⟨o.version, []⟩, taken)
  else
    (o.describe d (Description.fresh taken o.description),
      Description.fresh taken o.description :: taken)

theorem describeAll_cons :
    describeAll d taken (o :: os)
      = ((describeNext d taken o).1 :: (describeAll d (describeNext d taken o).2 os).1,
        (describeAll d (describeNext d taken o).2 os).2) := by
  rw [describeAll, describeNext]
  split <;> rfl

theorem describeNext_version : (describeNext d taken o).1.version = o.version := by
  unfold describeNext
  split <;> rfl

theorem describeAll_append :
    describeAll d taken (os ++ os')
      = ((describeAll d taken os).1 ++ (describeAll d (describeAll d taken os).2 os').1,
        (describeAll d (describeAll d taken os).2 os').2) := by
  induction os generalizing taken with
  | nil => rfl
  | cons o os ih =>
    rw [List.cons_append, describeAll_cons, describeAll_cons, ih]
    rfl

/-- An operation is described at its version. -/
theorem describeAll_versions :
    (describeAll d taken os).1.map (·.version) = os.map (·.version) := by
  induction os generalizing taken with
  | nil => rfl
  | cons o os ih => rw [describeAll_cons, List.map_cons, List.map_cons, ih, describeNext_version]

/-! ## Which description is free -/

namespace Description

variable {base : String} {fuel n m : Nat} {taken' : List String}

theorem numbered_inj (h : numbered base m = numbered base n) : m = n :=
  Text.Decimal.string_inj ((String.append_right_inj _).mp h)

/-- More than `taken.length` numbers in a row are not all taken. -/
theorem exists_free (taken : List String) (base : String) (n : Nat) :
    ∃ m, n ≤ m ∧ m ≤ n + taken.length ∧ numbered base m ∉ taken := by
  by_contra hnone
  have hall : ∀ m, n ≤ m → m ≤ n + taken.length → numbered base m ∈ taken := by
    intro m hn hm
    by_contra hfree
    exact hnone ⟨m, hn, hm, hfree⟩
  have hnodup : ((List.range (taken.length + 1)).map fun i => numbered base (n + i)).Nodup :=
    List.nodup_range.map fun i j hij => by
      have := numbered_inj hij
      omega
  have hsubset : ((List.range (taken.length + 1)).map fun i => numbered base (n + i)) ⊆ taken := by
    intro x hx
    obtain ⟨i, hi, rfl⟩ := List.mem_map.mp hx
    have := List.mem_range.mp hi
    exact hall (n + i) (by omega) (by omega)
  have hlength := hnodup.length_le_of_subset hsubset
  rw [List.length_map, List.length_range] at hlength
  omega

/-- The search finds the least number that is free, if it goes on long enough. -/
theorem firstFree_eq (hn : n ≤ m) (hm : m ≤ n + fuel) (hfree : numbered base m ∉ taken)
    (htaken : ∀ k, n ≤ k → k < m → numbered base k ∈ taken) :
    firstFree taken base fuel n = numbered base m := by
  induction fuel generalizing n with
  | zero => rw [show m = n by omega, firstFree]
  | succ fuel ih =>
    rw [firstFree]
    split
    · next hin =>
      have hne : n ≠ m := fun he => hfree (he ▸ hin)
      exact ih (by omega) (by omega) fun k hk => htaken k (by omega)
    · next hout =>
      have heq : n = m := by
        by_contra hne
        exact hout (htaken n (Nat.le_refl n) (by omega))
      rw [heq]

/-- A number is the first, from two on, that makes a description that is not taken. -/
structure IsFirstFree (taken : List String) (base : String) (n : Nat) : Prop where
  from_two : 2 ≤ n
  free : numbered base n ∉ taken
  least : ∀ k, 2 ≤ k → k < n → numbered base k ∈ taken

/-- Whatever is taken, counting from two on comes to a number that is free. -/
theorem exists_firstFree (taken : List String) (base : String) :
    ∃ n, IsFirstFree taken base n ∧ n ≤ 2 + taken.length := by
  obtain ⟨m, hm, hreach, hfree⟩ := exists_free taken base 2
  have hexists : ∃ n, 2 ≤ n ∧ numbered base n ∉ taken := ⟨m, hm, hfree⟩
  obtain ⟨hn, hfirst⟩ := Nat.find_spec hexists
  refine ⟨Nat.find hexists, ⟨hn, hfirst, fun k hk hlt => ?_⟩,
    Nat.le_trans (Nat.find_min' hexists ⟨hm, hfree⟩) hreach⟩
  by_contra hout
  exact Nat.find_min hexists hlt ⟨hk, hout⟩

theorem IsFirstFree.unique (hm : IsFirstFree taken base m) (hn : IsFirstFree taken base n) :
    m = n := by
  rcases Nat.lt_trichotomy m n with hlt | heq | hlt
  · exact absurd (hn.least m hm.from_two hlt) hm.free
  · exact heq
  · exact absurd (hm.least n hn.from_two hlt) hn.free

theorem IsFirstFree.congr (h : ∀ k, numbered base k ∈ taken ↔ numbered base k ∈ taken')
    (hn : IsFirstFree taken base n) : IsFirstFree taken' base n where
  from_two := hn.from_two
  free := fun hin => hn.free ((h n).mpr hin)
  least := fun k hk hlt => (h k).mp (hn.least k hk hlt)

/-- An operation whose description is taken gets the first number that is free. -/
theorem fresh_of_mem (h : base ∈ taken) :
    ∃ n, IsFirstFree taken base n ∧ fresh taken base = numbered base n := by
  obtain ⟨n, hn, hreach⟩ := exists_firstFree taken base
  exact ⟨n, hn, by rw [fresh, if_pos h, firstFree_eq hn.from_two hreach hn.free hn.least]⟩

theorem fresh_of_notMem (h : base ∉ taken) : fresh taken base = base := if_neg h

/-- Which description an operation gets only depends on those that it may get. -/
theorem fresh_congr (hbase : base ∈ taken ↔ base ∈ taken')
    (hnumbered : ∀ n, numbered base n ∈ taken ↔ numbered base n ∈ taken') :
    fresh taken base = fresh taken' base := by
  by_cases hin : base ∈ taken
  · obtain ⟨n, hn, hfresh⟩ := fresh_of_mem hin
    obtain ⟨n', hn', hfresh'⟩ := fresh_of_mem (hbase.mp hin)
    rw [hfresh, hfresh', (hn.congr hnumbered).unique hn']
  · rw [fresh_of_notMem hin, fresh_of_notMem fun hin' => hin (hbase.mpr hin')]

/-- A description is what an operation is for, and something may be appended. -/
theorem fresh_eq (taken : List String) (base : String) :
    ∃ suffix, fresh taken base = base ++ suffix := by
  by_cases hin : base ∈ taken
  · obtain ⟨n, -, hfresh⟩ := fresh_of_mem hin
    exact ⟨_, hfresh.trans (String.append_assoc ..)⟩
  · exact ⟨"", (fresh_of_notMem hin).trans String.append_empty.symm⟩

end Description

/-- Operations are described the same when what is taken only differs in descriptions that none of
them may get. -/
theorem describeAll_congr {taken' : List String} {P : String → Prop}
    (hP : ∀ base suffix, P base → P (base ++ suffix))
    (htaken : ∀ x, P x → (x ∈ taken ↔ x ∈ taken')) (hos : ∀ o ∈ os, P o.description) :
    (describeAll d taken os).1 = (describeAll d taken' os).1 := by
  induction os generalizing taken taken' with
  | nil => rfl
  | cons o os ih =>
    rw [List.forall_mem_cons] at hos
    have hfresh :
        Description.fresh taken o.description = Description.fresh taken' o.description := by
      refine Description.fresh_congr (htaken _ hos.1) fun n => htaken _ ?_
      rw [Description.numbered, String.append_assoc]
      exact hP _ _ hos.1
    have hnext : (describeNext d taken o).1 = (describeNext d taken' o).1 := by
      unfold describeNext
      rw [hfresh]
      split <;> rfl
    rw [describeAll_cons, describeAll_cons, hnext]
    -- the same description is taken on both sides
    refine congrArg (_ :: ·) (ih (fun x hx => ?_) hos.2)
    unfold describeNext
    rw [hfresh]
    split
    · exact htaken x hx
    · rw [List.mem_cons, List.mem_cons, htaken x hx]

/-- What is taken after operations that had none taken before: descriptions of theirs. -/
theorem mem_taken {x : String} (hx : x ∈ (describeAll d taken os).2) :
    x ∈ taken ∨ ∃ o ∈ os, ∃ suffix, x = o.description ++ suffix := by
  induction os generalizing taken with
  | nil => exact Or.inl hx
  | cons o os ih =>
    rw [describeAll_cons] at hx
    rcases ih hx with hx | ⟨o', ho', hsuffix⟩
    · unfold describeNext at hx
      split at hx
      · exact Or.inl hx
      · rcases List.mem_cons.mp hx with rfl | hx
        · obtain ⟨suffix, hs⟩ := Description.fresh_eq taken o.description
          exact Or.inr ⟨o, List.mem_cons_self, suffix, hs⟩
        · exact Or.inl hx
    · exact Or.inr ⟨o', List.mem_cons_of_mem _ ho', hsuffix⟩

/-! ## Version by version -/

/-- What described operations have to be done at a version. -/
def queriesOf (done : List VersionEntry) (version : String) : List DescribedQuery :=
  (done.filter (·.version == version)).flatMap (·.queries)

/-- The entry of a version, if there is anything to be done at it. -/
def entryOf (version : String) (queries : List DescribedQuery) : Option VersionEntry :=
  if queries.isEmpty then none else some ⟨version, queries⟩

theorem gather_eq {done : List VersionEntry} :
    gather versions done
      = versions.filterMap fun version => entryOf version (queriesOf done version) :=
  rfl

theorem entryOf_version {queries : List DescribedQuery} {e : VersionEntry}
    (h : entryOf version queries = some e) : e.version = version := by
  unfold entryOf at h
  split at h
  · cases h
  · rw [← Option.some.inj h]

theorem entryOf_inj {queries queries' : List DescribedQuery} :
    entryOf version queries = entryOf version queries' ↔ queries = queries' := by
  unfold entryOf
  cases queries <;> cases queries' <;> simp

/-- The entry that is found for a version has what is to be done at it. -/
theorem find?_gather {done : List VersionEntry} (hn : versions.Nodup) (hv : version ∈ versions) :
    (gather versions done).find? (·.version == version)
      = entryOf version (queriesOf done version) := by
  rw [gather_eq]
  induction versions with
  | nil => cases hv
  | cons v versions ih =>
    rw [List.nodup_cons] at hn
    rw [List.filterMap_cons]
    rcases List.mem_cons.mp hv with rfl | hv
    · -- no later entry is at this version
      have hrest : (versions.filterMap fun v => entryOf v (queriesOf done v)).find?
          (·.version == version) = none := by
        refine List.find?_eq_none.mpr fun e he hev => hn.1 ?_
        obtain ⟨v, hv, hve⟩ := List.mem_filterMap.mp he
        have hev : e.version = version := by simpa using hev
        rw [← hev, entryOf_version hve]
        exact hv
      cases he : entryOf version (queriesOf done version) with
      | none => exact hrest
      | some e => exact List.find?_cons_of_pos (by simp [entryOf_version he])
    · have hne : v ≠ version := fun he => hn.1 (he ▸ hv)
      have ih := ih hn.2 hv
      cases he : entryOf v (queriesOf done v) with
      | none => exact ih
      | some e =>
        rw [List.find?_cons_of_neg (by simpa [entryOf_version he] using hne)]
        exact ih

/-- What a list of gathered entries has for a version. -/
theorem queriesAt_gather {done : List VersionEntry} (hn : versions.Nodup)
    (hv : version ∈ versions) :
    Changelog.queriesAt (gather versions done) version = queriesOf done version := by
  rw [Changelog.queriesAt, find?_gather hn hv, entryOf]
  split
  · next e he =>
    split at he
    · cases he
    · rw [← Option.some.inj he]
  · next he =>
    split at he
    · next hnil => exact (List.isEmpty_iff.mp hnil).symm
    · cases he

/-- Nothing is gathered for a version that is not on the timeline. -/
theorem queriesAt_gather_of_notMem {done : List VersionEntry} (hv : version ∉ versions) :
    Changelog.queriesAt (gather versions done) version = [] := by
  have hnone : (gather versions done).find? (·.version == version) = none := by
    refine List.find?_eq_none.mpr fun e he hev => hv ?_
    obtain ⟨v, hin, hve⟩ := List.mem_filterMap.mp he
    rw [← beq_iff_eq.mp hev, entryOf_version hve]
    exact hin
  rw [Changelog.queriesAt, hnone]

theorem queriesOf_cons {e : VersionEntry} {done : List VersionEntry} :
    queriesOf (e :: done) version
      = (if e.version = version then e.queries else []) ++ queriesOf done version := by
  by_cases he : e.version = version
  · simp [queriesOf, he]
  · simp [queriesOf, he]

theorem queriesOf_append {done done' : List VersionEntry} :
    queriesOf (done ++ done') version = queriesOf done version ++ queriesOf done' version := by
  rw [queriesOf, List.filter_append, List.flatMap_append, queriesOf, queriesOf]

/-- Nothing is to be done at a version at which there is no operation. -/
theorem queriesOf_eq_nil (h : ∀ o ∈ os, o.version ≠ version) :
    queriesOf (describeAll d taken os).1 version = [] := by
  have hnone : (describeAll d taken os).1.filter (·.version == version) = [] := by
    refine List.filter_eq_nil_iff.mpr fun e he hev => ?_
    have hm : e.version ∈ os.map (·.version) := describeAll_versions ▸ List.mem_map_of_mem he
    obtain ⟨o, ho, hoe⟩ := List.mem_map.mp hm
    exact h o ho (hoe.trans (by simpa using hev))
  rw [queriesOf, hnone]
  rfl

/-! ## What is written -/

/-- The operations that have statements. -/
def written (os : List Operation) : List Operation := os.filter (!·.statements.isEmpty)

/-- How many statements there are at a version. -/
def statementsAt (version : String) : List Operation → Nat
  | [] => 0
  | o :: os => (if o.version = version then o.statements.length else 0) + statementsAt version os

theorem written_append : written (os ++ os') = written os ++ written os' := List.filter_append ..

theorem statementsAt_append :
    statementsAt version (os ++ os') = statementsAt version os + statementsAt version os' := by
  induction os with
  | nil => exact (Nat.zero_add _).symm
  | cons o os ih => rw [List.cons_append, statementsAt, statementsAt, ih, Nat.add_assoc]

theorem written_eq_nil : written os = [] ↔ ∀ o ∈ os, o.statements = [] := by
  simp [written]

theorem statementsAt_eq_zero :
    statementsAt version os = 0 ↔ ∀ o ∈ os, o.version = version → o.statements = [] := by
  induction os with
  | nil => simp [statementsAt]
  | cons o os ih =>
    rw [statementsAt, Nat.add_eq_zero_iff, ih, List.forall_mem_cons]
    by_cases hv : o.version = version
    · simp [hv]
    · simp [hv]

theorem describeNext_queries :
    (describeNext d taken o).1.queries.map (·.query) = o.statements.map (Ddl.text d) := by
  unfold describeNext
  split
  · next h => rw [List.isEmpty_iff.mp h, List.map_nil, List.map_nil]
  · rw [Operation.describe, List.map_map]
    rfl

/-- The queries at a version are the statements of the operations at it. -/
theorem map_query_queriesOf :
    (queriesOf (describeAll d taken os).1 version).map (·.query)
      = ((os.filter (·.version == version)).flatMap (·.statements)).map (Ddl.text d) := by
  induction os generalizing taken with
  | nil => rfl
  | cons o os ih =>
    rw [describeAll_cons, queriesOf_cons, List.map_append, ih, describeNext_version]
    by_cases hv : o.version = version
    · rw [if_pos hv, List.filter_cons_of_pos (by simpa using hv), List.flatMap_cons,
        List.map_append, describeNext_queries]
    · rw [if_neg hv, List.filter_cons_of_neg (by simpa using hv)]
      rfl

theorem map_query_queriesAt (hn : versions.Nodup) (hv : version ∈ versions) :
    (Changelog.queriesAt (gather versions (describeAll d taken os).1) version).map (·.query)
      = ((os.filter (·.version == version)).flatMap (·.statements)).map (Ddl.text d) := by
  rw [queriesAt_gather hn hv, map_query_queriesOf]

/-- The first entries of a changelog hold the queries of the first versions. -/
theorem Changelog.map_query_take_entries {log : Changelog} {passed later : List String}
    (h : log.versions = passed ++ later) :
    (log.entries.take passed.length).flatMap (fun e => e.queries.map (·.query))
      = passed.flatMap fun version =>
        (queriesAt log.enumEntries version ++ queriesAt log.functionEntries version
          ++ queriesAt log.tableEntries version).map (·.query) := by
  rw [entries, ← List.map_take, h, List.take_left, List.flatMap_map]

/-- Each statement becomes one query. -/
theorem length_queriesOf :
    (queriesOf (describeAll d taken os).1 version).length = statementsAt version os := by
  induction os generalizing taken with
  | nil => rfl
  | cons o os ih =>
    rw [describeAll_cons, queriesOf_cons, List.length_append, ih, describeNext_version,
      statementsAt]
    split
    · rw [← List.length_map (·.query), describeNext_queries, List.length_map]
    · rw [List.length_nil]

/-- Operations without statements say nothing, and take no description. -/
theorem queriesOf_written :
    queriesOf (describeAll d taken (written os)).1 version
      = queriesOf (describeAll d taken os).1 version := by
  induction os generalizing taken with
  | nil => rfl
  | cons o os ih =>
    rw [written, List.filter_cons, describeAll_cons, queriesOf_cons]
    cases hs : o.statements.isEmpty with
    | true =>
      have hnext : describeNext d taken o = (⟨o.version, []⟩, taken) := if_pos hs
      rw [hnext, ite_self, List.nil_append, ← ih]
      rfl
    | false =>
      rw [Bool.not_false, if_pos rfl, describeAll_cons, queriesOf_cons, ← written, ih]

/-- Where nothing is written there are no queries. -/
theorem queriesOf_of_written_eq_nil (h : written os = []) :
    queriesOf (describeAll d taken os).1 version = [] := by
  rw [← queriesOf_written, h]
  rfl

end SchemaEvolution
