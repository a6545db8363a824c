import Mathlib.Data.List.Perm.Basic
import SchemaEvolution.Proofs.Extension.EnumOperations
import SchemaEvolution.Proofs.Statements

/-!
# What is done about enums in any order

What is done about an enum at a version depends on the enum and on the columns that use it. When
both the enums and the columns come in another order, the same statements are written at every
version, in some order.
-/

namespace SchemaEvolution

/-- Results for the elements of a list, in whatever order these come, and up to the order within
each result. -/
theorem Except.perm_of_mapM_ok {ε α β γ : Type} {f f' : α → Except ε β} {k : β → List γ}
    {as as' : List α} {bs bs' : List β} (hperm : as.Perm as') (h : as.mapM f = .ok bs)
    (h' : as'.mapM f' = .ok bs')
    (hk : ∀ a b b', f a = .ok b → f' a = .ok b' → (k b).Perm (k b')) :
    (bs.flatMap k).Perm (bs'.flatMap k) := by
  have hflat : ∀ (f : α → Except ε β) (as : List α) (bs : List β), as.mapM f = .ok bs →
      bs.flatMap k = as.flatMap fun a => match f a with
        | .ok b => k b
        | .error _ => [] := by
    intro f as
    induction as with
    | nil =>
      intro bs h
      obtain rfl := Except.pure_ok.mp h
      rfl
    | cons a as ih =>
      intro bs h
      obtain ⟨b, rest, hb, hrest, rfl⟩ := Except.mapM_cons_ok.mp h
      rw [List.flatMap_cons, List.flatMap_cons, hb, ih rest hrest]
  rw [hflat f as bs h, hflat f' as' bs' h']
  refine hperm.flatMap fun a ha => ?_
  obtain ⟨b, hb⟩ := Except.exists_of_mapM_ok h ha
  obtain ⟨b', hb'⟩ := Except.exists_of_mapM_ok h' (hperm.mem_iff.mp ha)
  rw [hb, hb']
  exact hk a b b' hb hb'

theorem dated_append {os os' : List Operation} : dated (os ++ os') = dated os ++ dated os' :=
  List.flatMap_append ..

theorem dated_flatten {parts : List (List Operation)} :
    dated parts.flatten = parts.flatMap dated := by
  induction parts with
  | nil => rfl
  | cons part parts ih => rw [List.flatten_cons, dated_append, ih, List.flatMap_cons]

theorem perm_dated {os os' : List Operation} (h : os.Perm os') : (dated os).Perm (dated os') :=
  h.flatMap_right _

theorem Dialect.perm_enumGrowth {d : Dialect} {s : Enumeration} {added : List String}
    {uses uses' : List EnumUse} {statements statements' : List Ddl} (huses : uses.Perm uses')
    (h : d.enumGrowth s added uses = .ok statements)
    (h' : d.enumGrowth s added uses' = .ok statements') : statements.Perm statements' := by
  cases d with
  | mysql =>
    have hperm := Except.perm_of_mapM_ok (k := ([·])) huses h h' fun u b b' hb hb' => by
      rw [Except.ok.inj (hb.symm.trans hb')]
    rw [List.flatMap_singleton', List.flatMap_singleton'] at hperm
    exact hperm
  | postgres => rw [Except.ok.inj (h.symm.trans h')]
  | sqlite => rw [Except.ok.inj (h.symm.trans h')]

namespace EnumRegistry

variable {d : Dialect} {before versions : List String} {version : String} {e : EnumHistory}
  {uses uses' : List EnumUse} {usesAt usesAt' : String → List EnumUse} {es es' : List EnumHistory}
  {os os' part part' : List Operation}

theorem perm_operationAt (huses : uses.Perm uses')
    (h : operationAt d before version uses e = .ok part)
    (h' : operationAt d before version uses' e = .ok part') : (dated part).Perm (dated part') := by
  have hsame : operationAt d before version uses e = operationAt d before version uses' e →
      (dated part).Perm (dated part') := fun heq => by
    rw [Except.ok.inj (h.symm.trans (heq.trans h'))]
  unfold operationAt operation at *
  cases hnow : EnumHistory.visible (e.through (before ++ [version])) with
  | none => exact hsame (by rw [hnow])
  | some now =>
    cases hbefore : EnumHistory.visible (e.through before) with
    | none => exact hsame (by rw [hnow, hbefore])
    | some previous =>
      simp only [hnow, hbefore] at h h' hsame
      split at h
      · next hlt =>
        rw [if_pos hlt] at h'
        obtain ⟨statements, hstatements, hpart⟩ := Except.bind_ok.mp h
        obtain ⟨statements', hstatements', hpart'⟩ := Except.bind_ok.mp h'
        obtain rfl := Except.pure_ok.mp hpart
        obtain rfl := Except.pure_ok.mp hpart'
        have hperm := Dialect.perm_enumGrowth (huses.filter _) hstatements hstatements'
        rw [dated, dated, List.flatMap_singleton, List.flatMap_singleton]
        exact hperm.map _
      · next hle =>
        rw [if_neg hle] at h'
        rw [Except.ok.inj (h.symm.trans h')]

theorem perm_operationsFrom (hes : es.Perm es')
    (huses : ∀ version, (usesAt version).Perm (usesAt' version))
    (h : operationsFrom d es usesAt before versions = .ok os)
    (h' : operationsFrom d es' usesAt' before versions = .ok os') :
    (dated os).Perm (dated os') := by
  induction versions generalizing before os os' with
  | nil => rw [Except.ok.inj (h.symm.trans h')]
  | cons version versions ih =>
    obtain ⟨first, rest, hfirst, hrest, rfl⟩ := operationsFrom_cons_ok.mp h
    obtain ⟨first', rest', hfirst', hrest', rfl⟩ := operationsFrom_cons_ok.mp h'
    have hversion := Except.perm_of_mapM_ok (k := dated) hes hfirst hfirst' fun e part part' =>
      perm_operationAt (huses version)
    rw [dated_append, dated_append, dated_flatten, dated_flatten]
    exact hversion.append (ih hrest hrest')

end EnumRegistry

end SchemaEvolution
