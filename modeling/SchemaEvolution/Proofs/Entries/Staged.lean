import SchemaEvolution.Migration.Pending
import SchemaEvolution.Proofs.Entries.Merged

/-!
# Going along a timeline in stages

What is pending is found by position: all that stands after the first entry of the marker's version.
The versions of a changelog ascend strictly, so that is all that comes after the marker in the order
of labels. However often a database stops on its way, and wherever, it executes every entry once.
-/

namespace SchemaEvolution

/-- Where a database comes to that is taken along entries in stages, when it begins with a marker:
its marker then, and the entries that it has executed. A stage executes entries that are pending, up
to one whose version becomes the marker. -/
inductive Staged (all : List VersionEntry) (first : Option String) :
    Option String → List VersionEntry → Prop
  | start : Staged all first first []
  | stage {marker : Option String} {executed now later : List VersionEntry} {last : VersionEntry} :
    Staged all first marker executed → pendingAfter all marker = now ++ last :: later →
      Staged all first (some last.version) (executed ++ now ++ [last])

section

variable {all : List VersionEntry} {first marker : Option String} {m m' : String}
  {executed : List VersionEntry}

/-- Around the entry of a version stand the earlier ones and the later ones. -/
theorem exists_split_at (h : (all.map (·.version)).Pairwise (· < ·))
    (hm : m ∈ all.map (·.version)) :
    ∃ passed last later, all = passed ++ last :: later ∧ last.version = m ∧
      (∀ e ∈ passed, e.version < m) ∧ ∀ e ∈ later, m < e.version := by
  obtain ⟨last, hlast, rfl⟩ := List.mem_map.mp hm
  obtain ⟨passed, later, rfl⟩ := List.append_of_mem hlast
  rw [List.pairwise_map, List.pairwise_append, List.pairwise_cons] at h
  exact ⟨passed, last, later, rfl, rfl, fun e he => h.2.2 e he last List.mem_cons_self, h.2.1.1⟩

theorem pendingAfter_of_split {passed later : List VersionEntry} {last : VersionEntry}
    (hlast : last.version = m) (hpassed : ∀ e ∈ passed, e.version < m) :
    pendingAfter (passed ++ last :: later) (some m) = later := by
  subst hlast
  exact pendingAfter_append_cons fun e he => String.ne_of_lt (hpassed e he)

/-- What is pending is all that comes after the marker in the order of labels. -/
theorem pendingAfter_eq_filter (h : (all.map (·.version)).Pairwise (· < ·))
    (hm : m ∈ all.map (·.version)) :
    pendingAfter all (some m) = all.filter (m < ·.version) := by
  obtain ⟨passed, last, later, rfl, hlast, hpassed, hlater⟩ := exists_split_at h hm
  have hbefore : passed.filter (m < ·.version) = [] :=
    List.filter_eq_nil_iff.mpr fun e he => by simpa using String.lt_asymm (hpassed e he)
  have hself : ¬ m < last.version := hlast ▸ String.lt_irrefl _
  have hafter : later.filter (m < ·.version) = later :=
    List.filter_eq_self.mpr fun e he => by simpa using hlater e he
  rw [pendingAfter_of_split hlast hpassed, List.filter_append, hbefore,
    List.filter_cons_of_neg (by simpa using hself), hafter, List.nil_append]

/-- Of what is pending after a marker, that is pending after a later one which is pending after it
in any case. -/
theorem pendingAfter_pendingAfter (h : (all.map (·.version)).Pairwise (· < ·))
    (hm : m ∈ all.map (·.version)) (hm' : m' ∈ all.map (·.version)) (hlt : m < m') :
    pendingAfter (pendingAfter all (some m)) (some m') = pendingAfter all (some m') := by
  have hpending := pendingAfter_eq_filter h hm
  have hsorted : ((pendingAfter all (some m)).map (·.version)).Pairwise (· < ·) := by
    rw [hpending]
    exact h.sublist (List.filter_sublist.map _)
  have hin : m' ∈ (pendingAfter all (some m)).map (·.version) := by
    obtain ⟨e, he, rfl⟩ := List.mem_map.mp hm'
    rw [hpending]
    exact List.mem_map_of_mem (List.mem_filter.mpr ⟨he, by simpa using hlt⟩)
  rw [pendingAfter_eq_filter hsorted hin, hpending, List.filter_filter,
    pendingAfter_eq_filter h hm']
  refine List.filter_congr fun e _ => ?_
  -- what comes after the later marker comes after the earlier one
  by_cases he : m' < e.version
  · simp [he, String.lt_trans hlt he]
  · simp [he]

/-- Nothing is pending after the last version. -/
theorem pendingAfter_last (h : (all.map (·.version)).Pairwise (· < ·))
    (hm : (all.map (·.version)).getLast? = some m) : pendingAfter all (some m) = [] := by
  obtain ⟨versions, hversions⟩ := List.getLast?_eq_some_iff.mp hm
  obtain ⟨passed, rest, rfl, rfl, hrest⟩ := List.map_eq_append_iff.mp hversions
  obtain ⟨last, others, rfl, hlast, hnil⟩ := List.map_eq_cons_iff.mp hrest
  obtain rfl := List.map_eq_nil_iff.mp hnil
  rw [List.map_append, List.pairwise_append] at h
  refine pendingAfter_of_split hlast fun e he => ?_
  exact h.2.2 _ (List.mem_map_of_mem he) m (by simp [hlast])

/-- Wherever the stages have led, what has been executed and what is pending make up everything. -/
theorem Staged.executed_append_pending (h : (all.map (·.version)).Pairwise (· < ·))
    (hfirst : ∀ m ∈ first, m ∉ all.map (·.version)) (hs : Staged all first marker executed) :
    executed ++ pendingAfter all marker = all := by
  induction hs with
  | start =>
    cases first with
    | none => rfl
    | some m =>
      refine pendingAfter_of_unknown fun e he hem => hfirst m rfl ?_
      exact hem ▸ List.mem_map_of_mem he
  | @stage marker executed now later last _ hpending ih =>
    rw [hpending, ← List.append_assoc] at ih
    have hpassed : ∀ e ∈ executed ++ now, e.version < last.version := by
      rw [← ih, List.map_append, List.pairwise_append] at h
      exact fun e he => h.2.2 _ (List.mem_map_of_mem he) _ List.mem_cons_self
    have hlater : pendingAfter all (some last.version) = later := by
      rw [← ih]
      exact pendingAfter_of_split rfl hpassed
    rw [hlater, List.append_assoc, List.singleton_append]
    exact ih

end

namespace Changelog

variable {d : Dialect} {h : SchemaHistory} {log : Changelog}

/-- A database that goes along a timeline in stages neither repeats a version nor skips one. What is
pending after a version of a changelog is all that comes after it, in order, and comes right after
the entries up to it; a database that has gone on from one marker to a later one has the same before
it as if it had gone to the later one at once. After the last version nothing is pending; without a
marker, or with one that is no version, everything is. So whatever stages a database is taken along
in that begins like this, it has executed the beginning of the timeline of which the rest is
pending, and everything when its last stage ended with the last version. -/
theorem stages_execute_once (hlog : ofHistory d h = .ok log) :
    (∀ m ∈ log.versions,
      pendingAfter log.entries (some m) = log.entries.filter (m < ·.version) ∧
      ∃ passed last, last.version = m ∧
        passed ++ [last] ++ pendingAfter log.entries (some m) = log.entries) ∧
    (∀ m ∈ log.versions, ∀ m' ∈ log.versions, m < m' →
      pendingAfter (pendingAfter log.entries (some m)) (some m')
        = pendingAfter log.entries (some m')) ∧
    (∀ m, log.versions.getLast? = some m → pendingAfter log.entries (some m) = []) ∧
    pendingAfter log.entries none = log.entries ∧
    (∀ m, m ∉ log.versions → pendingAfter log.entries (some m) = log.entries) ∧
    ∀ first marker executed, (∀ m ∈ first, m ∉ log.versions) →
      Staged log.entries first marker executed →
        executed ++ pendingAfter log.entries marker = log.entries ∧
        (log.versions.getLast? = marker → executed = log.entries) := by
  obtain ⟨p, -, rfl⟩ := Except.map_ok.mp hlog
  have hversions : (ofPlan ⟨d, h⟩ p).entries.map (·.version) = h.timeline := by
    rw [entries, List.map_map]
    exact List.map_id _
  have hsorted : ((ofPlan ⟨d, h⟩ p).entries.map (·.version)).Pairwise (· < ·) :=
    hversions ▸ Timeline.pairwise_ofLabels _
  show (∀ m ∈ h.timeline, _) ∧ (∀ m ∈ h.timeline, ∀ m' ∈ h.timeline, _) ∧
    (∀ m, h.timeline.getLast? = some m → _) ∧ _ ∧ (∀ m, m ∉ h.timeline → _) ∧
    ∀ first marker executed, (∀ m ∈ first, m ∉ h.timeline) → _ → _ ∧
      (h.timeline.getLast? = marker → _)
  rw [← hversions]
  refine ⟨fun m hm => ⟨pendingAfter_eq_filter hsorted hm, ?_⟩,
    fun m hm m' hm' => pendingAfter_pendingAfter hsorted hm hm',
    fun m => pendingAfter_last hsorted, rfl, fun m hm => ?_,
    fun first marker executed hfirst hs => ?_⟩
  · obtain ⟨passed, last, later, hsplit, hlast, hpassed, -⟩ := exists_split_at hsorted hm
    refine ⟨passed, last, hlast, ?_⟩
    rw [hsplit, pendingAfter_of_split hlast hpassed, List.append_assoc, List.singleton_append]
  · exact pendingAfter_of_unknown fun e he hem => hm (hem ▸ List.mem_map_of_mem he)
  · have hall := hs.executed_append_pending hsorted hfirst
    refine ⟨hall, fun hlast => ?_⟩
    cases marker with
    | none =>
      -- there is no version at all
      have hnil := List.map_eq_nil_iff.mp (List.getLast?_eq_none_iff.mp hlast)
      rw [hnil] at hall
      rw [hnil]
      exact (List.append_eq_nil_iff.mp hall).1
    | some m =>
      rwa [pendingAfter_last hsorted hlast, List.append_nil] at hall

/-- A database that goes along the four versions of a changelog in two stages, and begins with a
marker that the timeline does not know. -/
theorem stages_execute_once_countedBooks :
    ∃ log executed, ofHistory .postgres countedBooks = .ok log ∧
      log.versions = ["1", "2", "3", "4"] ∧
      (pendingAfter log.entries (some "3")).map (·.version) = ["4"] ∧
      Staged log.entries (some "0") (some "4") executed ∧ executed = log.entries := by
  obtain ⟨log, hlog⟩ := Except.exists_of_isOk
    (show (ofHistory .postgres countedBooks).isOk = true by decide)
  have hcomputed : log.versions = ["1", "2", "3", "4"] ∧
      ∃ e₁ e₂ e₃ e₄ : VersionEntry, log.entries = [e₁, e₂, e₃, e₄] ∧ e₁.version = "1" ∧
        e₂.version = "2" ∧ e₃.version = "3" ∧ e₄.version = "4" := by
    obtain rfl := Except.ok.inj (hlog.symm.trans rfl)
    exact ⟨rfl, _, _, _, _, rfl, rfl, rfl, rfl, rfl⟩
  obtain ⟨hversions, e₁, e₂, e₃, e₄, hentries, h₁, h₂, h₃, h₄⟩ := hcomputed
  obtain ⟨hfilter, -, -, -, hunknown, hstaged⟩ := stages_execute_once hlog
  have hpending : pendingAfter log.entries (some e₃.version) = [e₄] := by
    rw [h₃, (hfilter "3" (by simp [hversions])).1, hentries]
    simp only [List.filter_cons, h₁, h₂, h₃, h₄]
    rfl
  have hfirst : pendingAfter log.entries (some "0") = [e₁, e₂] ++ e₃ :: [e₄] := by
    rw [hunknown "0" (by simp [hversions]), hentries]
    rfl
  have hstage : Staged log.entries (some "0") (some e₃.version) ([] ++ [e₁, e₂] ++ [e₃]) :=
    Staged.start.stage hfirst
  have hrun : Staged log.entries (some "0") (some e₄.version)
      ([] ++ [e₁, e₂] ++ [e₃] ++ [] ++ [e₄]) := hstage.stage hpending
  rw [h₄] at hrun
  refine ⟨log, _, hlog, hversions, by rw [← h₃, hpending, ← h₄]; rfl, hrun, ?_⟩
  exact (hstaged _ _ _ (by simp [hversions]) hrun).2 (by rw [hversions]; rfl)

end Changelog

end SchemaEvolution
