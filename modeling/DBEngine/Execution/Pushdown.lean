import DBEngine.Execution.Denotation
import DBEngine.Execution.QueryOptimizer

/-!
# Predicate pushdown preserves meaning

A conjunct that mentions one table reads the same values in a row of that
table's scan as in every joined row built from it.  So filtering the scan is
filtering the rows above it, and `push_down` leaves the rows of a plan as they
are, in their order.
-/

set_option autoImplicit false

namespace DBEngine

namespace Expr

theorem firstPart_mem_referencedTables {e : Expr String} {name : String} (h : name ∈ e.names) :
    firstPart name ∈ e.referencedTables := by
  induction e with
  | columnRef column =>
      rw [List.mem_singleton.mp h]
      exact List.mem_singleton_self _
  | literal value => simp [names] at h
  | comparison left op right ihl ihr =>
      exact List.mem_union_iff.mpr ((List.mem_append.mp h).imp ihl ihr)
  | and left right ihl ihr => exact List.mem_union_iff.mpr ((List.mem_append.mp h).imp ihl ihr)
  | or left right ihl ihr => exact List.mem_union_iff.mpr ((List.mem_append.mp h).imp ihl ihr)

/-- A pushed predicate joins the one that is there. -/
theorem trueOn?_push (schema : Schema) (row : List Value) (node : LogicalScan) (e : Expr String) :
    trueOn? schema row (node.push e).predicate =
      (trueOn? schema row node.predicate && e.TrueOn schema row) := by
  rw [LogicalScan.push]
  split
  · rename_i hnone
    simp [hnone, trueOn?]
  · rename_i p hsome
    simp only [hsome, trueOn?]
    exact trueOn_and schema row p e

end Expr

namespace LogicalNode

variable {contents : Contents} {table : String} {e : Expr String}

@[simp] theorem tableName_push (node : LogicalScan) (e : Expr String) :
    (node.push e).tableName = node.tableName := by
  rw [LogicalScan.push]
  split <;> rfl

/-- A scan is found exactly if the table is scanned. -/
theorem pushIntoScan_eq_none {node : LogicalNode} :
    node.pushIntoScan table e = none ↔ table ∉ node.scanned := by
  induction node with
  | scan node => simp [pushIntoScan, scanned, eq_comm]
  | filter child predicate ih => rw [pushIntoScan, Option.map_eq_none_iff, ih, scanned]
  | projection child projections ih => rw [pushIntoScan, Option.map_eq_none_iff, ih, scanned]
  | join left right condition ihl ihr =>
      rw [pushIntoScan, scanned, List.mem_append, not_or, ← ihl, ← ihr]
      cases left.pushIntoScan table e with
      | none => simp
      | some left => simp

/-- What pushing a predicate into a scan leaves as it is. -/
theorem pushIntoScan_shape {node : LogicalNode} : ∀ {node' : LogicalNode},
    node.pushIntoScan table e = some node' → node'.scanned = node.scanned ∧
      node'.columns contents = node.columns contents ∧ (node.Unprojected → node'.Unprojected) := by
  induction node with
  | scan node =>
      intro node' h
      rw [pushIntoScan] at h
      split at h
      · obtain rfl := Option.some.inj h
        simp [scanned, columns, Unprojected]
      · simp at h
  | filter child predicate ih =>
      intro node' h
      obtain ⟨child', hchild, rfl⟩ := Option.map_eq_some_iff.mp h
      obtain ⟨hscanned, hcolumns, hunprojected⟩ := ih hchild
      exact ⟨hscanned, hcolumns, hunprojected⟩
  | projection child projections ih =>
      intro node' h
      obtain ⟨child', hchild, rfl⟩ := Option.map_eq_some_iff.mp h
      obtain ⟨hscanned, hcolumns, -⟩ := ih hchild
      exact ⟨hscanned, by rw [columns, columns, hcolumns], fun h => h.elim⟩
  | join left right condition ihl ihr =>
      intro node' h
      rw [pushIntoScan] at h
      split at h
      · rename_i left' hleft
        obtain rfl := Option.some.inj h
        obtain ⟨hscanned, hcolumns, hunprojected⟩ := ihl hleft
        exact ⟨by rw [scanned, scanned, hscanned], by rw [columns, columns, hcolumns],
          fun hnode => ⟨hunprojected hnode.1, hnode.2⟩⟩
      · obtain ⟨right', hright, rfl⟩ := Option.map_eq_some_iff.mp h
        obtain ⟨hscanned, hcolumns, hunprojected⟩ := ihr hright
        exact ⟨by rw [scanned, scanned, hscanned], by rw [columns, columns, hcolumns],
          fun hnode => ⟨hnode.1, hunprojected hnode.2⟩⟩

/-- No column of a plan is named by a table it does not scan. -/
theorem name_ne_of_not_scanned {node : LogicalNode} (hnode : node.Unprojected)
    (hplain : ∀ name ∈ node.scanned, Plain name) (htable : table ∉ node.scanned) {name : String}
    (hname : firstPart name = table) : ∀ column ∈ node.columns contents, column.name ≠ name := by
  rintro column hcolumn rfl
  exact htable (hname ▸ firstPart_mem_scanned hnode hplain column hcolumn)

/-- A filter on the items of a loop that only looks at the outer variable. -/
theorem filter_flatMap_eq {α β : Type} {p : α → Bool} {q : β → Bool} {f : α → List β} {as : List α}
    (h : ∀ a ∈ as, ∀ b ∈ f a, q b = p a) : (as.filter p).flatMap f = (as.flatMap f).filter q := by
  induction as with
  | nil => rfl
  | cons a as ih =>
      have hrest := ih fun b hb => h b (List.mem_cons_of_mem _ hb)
      have hfirst : ∀ b ∈ f a, q b = p a := h a List.mem_cons_self
      rw [List.flatMap_cons, List.filter_append, ← hrest]
      cases hp : p a with
      | true =>
          rw [List.filter_cons_of_pos hp, List.flatMap_cons,
            List.filter_eq_self.mpr fun b hb => (hfirst b hb).trans hp]
      | false =>
          have hnone : (f a).filter q = [] := by
            refine List.filter_eq_nil_iff.mpr fun b hb => ?_
            rw [hfirst b hb, hp]
            decide
          rw [List.filter_cons_of_neg (by simp [hp]), hnone, List.nil_append]

/-- Filtering a scan below is filtering the rows above. -/
theorem rows_pushIntoScan {node : LogicalNode} (hnode : node.Unprojected)
    (hplain : ∀ name ∈ node.scanned, Plain name) (hnodup : node.scanned.Nodup)
    (hnames : ∀ name ∈ e.names, firstPart name = table) : ∀ {node' : LogicalNode},
    node.pushIntoScan table e = some node' →
      node'.rows contents = (node.rows contents).filter fun row =>
        e.TrueOn ⟨node.columns contents⟩ row := by
  induction node with
  | scan node =>
      intro node' h
      rw [pushIntoScan] at h
      split at h
      · obtain rfl := Option.some.inj h
        simp only [rows, columns, tableName_push, Expr.trueOn?_push, List.filter_filter]
        exact List.filter_congr fun row _ => Bool.and_comm _ _
      · simp at h
  | filter child predicate ih =>
      intro node' h
      obtain ⟨child', hchild, rfl⟩ := Option.map_eq_some_iff.mp h
      rw [rows, rows, columns, ih hnode hplain hnodup hchild, (pushIntoScan_shape hchild).2.1,
        List.filter_filter, List.filter_filter]
      exact List.filter_congr fun row _ => Bool.and_comm _ _
  | projection child projections ih => exact hnode.elim
  | join left right condition ihl ihr =>
      intro node' h
      rw [scanned] at hplain hnodup
      obtain ⟨hnodupl, hnodupr, hdisjoint⟩ := List.nodup_append.mp hnodup
      have hplainl : ∀ name ∈ left.scanned, Plain name := fun name hname =>
        hplain name (List.mem_append_left _ hname)
      have hplainr : ∀ name ∈ right.scanned, Plain name := fun name hname =>
        hplain name (List.mem_append_right _ hname)
      rw [pushIntoScan] at h
      split at h
      · rename_i left' hleft
        obtain rfl := Option.some.inj h
        have htable : table ∈ left.scanned := by
          by_contra hnot
          rw [pushIntoScan_eq_none.mpr hnot] at hleft
          simp at hleft
        have hright : table ∉ right.scanned := fun hmem => hdisjoint table htable table hmem rfl
        -- the conjunct reads the left half of a joined row
        have hhalf : ∀ l ∈ left.rows contents, ∀ r : List Value,
            e.TrueOn ⟨left.columns contents ++ right.columns contents⟩ (l ++ r) =
              e.TrueOn ⟨left.columns contents⟩ l := fun l hl r =>
          Expr.trueOn_congr fun name hname => Expr.lookup_append_left (length_of_mem_rows hl)
            (name_ne_of_not_scanned hnode.2 hplainr hright (hnames name hname))
        rw [rows, rows, columns, ihl hnode.1 hplainl hnodupl hleft, (pushIntoScan_shape hleft).2.1]
        refine filter_flatMap_eq fun l hl row hrow => ?_
        obtain ⟨r, -, rfl⟩ := List.mem_map.mp (List.mem_filter.mp hrow).1
        exact hhalf l hl r
      · rename_i hnone
        obtain ⟨right', hright, rfl⟩ := Option.map_eq_some_iff.mp h
        have hleft : table ∉ left.scanned := pushIntoScan_eq_none.mp hnone
        -- the conjunct reads the right half of a joined row
        have hhalf : ∀ l ∈ left.rows contents, ∀ r : List Value,
            e.TrueOn ⟨left.columns contents ++ right.columns contents⟩ (l ++ r) =
              e.TrueOn ⟨right.columns contents⟩ r := fun l hl r =>
          Expr.trueOn_congr fun name hname => Expr.lookup_append_right (length_of_mem_rows hl)
            (name_ne_of_not_scanned hnode.1 hplainl hleft (hnames name hname))
        rw [rows, rows, columns, ihr hnode.2 hplainr hnodupr hright, (pushIntoScan_shape hright).2.1,
          List.filter_flatMap]
        refine List.flatMap_congr fun l hl => ?_
        rw [List.filter_filter, List.filter_map, List.filter_map, List.filter_filter]
        congr 1
        refine List.filter_congr fun r _ => ?_
        simp only [Function.comp_apply, hhalf l hl r, Bool.and_comm]

/-- One conjunct that is pushed. -/
theorem rows_pushConjunct {node node' : LogicalNode} (hnode : node.Unprojected)
    (hplain : ∀ name ∈ node.scanned, Plain name) (hnodup : node.scanned.Nodup)
    (h : node.pushConjunct e = some node') :
    node'.rows contents = (node.rows contents).filter fun row =>
      e.TrueOn ⟨node.columns contents⟩ row := by
  rw [pushConjunct] at h
  split at h
  · rename_i table htables
    refine rows_pushIntoScan hnode hplain hnodup (fun name hname => ?_) h
    exact List.mem_singleton.mp (htables ▸ Expr.firstPart_mem_referencedTables hname)
  · simp at h

variable (contents) in
theorem pushConjunct_shape {node node' : LogicalNode} (h : node.pushConjunct e = some node') :
    node'.scanned = node.scanned ∧ node'.columns contents = node.columns contents ∧
      (node.Unprojected → node'.Unprojected) := by
  rw [pushConjunct] at h
  split at h
  · exact pushIntoScan_shape h
  · simp at h

variable (contents) in
theorem pushConjuncts_shape (conjuncts : List (Expr String)) : ∀ (node : LogicalNode),
    (pushConjuncts conjuncts node).1.scanned = node.scanned ∧
      (pushConjuncts conjuncts node).1.columns contents = node.columns contents ∧
      (node.Unprojected → (pushConjuncts conjuncts node).1.Unprojected) := by
  induction conjuncts with
  | nil => exact fun node => ⟨rfl, rfl, id⟩
  | cons conjunct rest ih =>
      intro node
      rw [pushConjuncts]
      split
      · rename_i node' hpush
        obtain ⟨hscanned, hcolumns, hunprojected⟩ := pushConjunct_shape contents hpush
        obtain ⟨hscanned', hcolumns', hunprojected'⟩ := ih node'
        exact ⟨hscanned'.trans hscanned, hcolumns'.trans hcolumns, fun h => hunprojected' (hunprojected h)⟩
      · exact ih node

variable (contents) in
/-- What is pushed and what is kept back is together the whole conjunction. -/
theorem rows_pushConjuncts (conjuncts : List (Expr String)) : ∀ {node : LogicalNode},
    node.Unprojected → (∀ name ∈ node.scanned, Plain name) → node.scanned.Nodup →
      (((pushConjuncts conjuncts node).1.rows contents).filter fun row =>
        (pushConjuncts conjuncts node).2.all fun c => c.TrueOn ⟨node.columns contents⟩ row) =
      (node.rows contents).filter fun row =>
        conjuncts.all fun c => c.TrueOn ⟨node.columns contents⟩ row := by
  induction conjuncts with
  | nil => intro node _ _ _; rfl
  | cons conjunct rest ih =>
      intro node hnode hplain hnodup
      rw [pushConjuncts]
      split
      · rename_i node' hpush
        obtain ⟨hscanned, hcolumns, hunprojected⟩ := pushConjunct_shape contents hpush
        have hrest := ih (hunprojected hnode) (hscanned ▸ hplain) (hscanned ▸ hnodup)
        rw [hcolumns] at hrest
        rw [hrest, rows_pushConjunct hnode hplain hnodup hpush, List.filter_filter]
        exact List.filter_congr fun row _ => by rw [List.all_cons, Bool.and_comm]
      · simp only [List.all_cons]
        have hrest := ih hnode hplain hnodup
        rw [← List.filter_filter, hrest, List.filter_filter]

/-- `push_filter` keeps the rows of the filter. -/
theorem rows_pushFilter {child : LogicalNode} (predicate : Expr String) (hchild : child.Unprojected)
    (hplain : ∀ name ∈ child.scanned, Plain name) (hnodup : child.scanned.Nodup) :
    (pushFilter child predicate).rows contents = (filter child predicate).rows contents := by
  have hrows := rows_pushConjuncts contents predicate.splitConjuncts hchild hplain hnodup
  obtain ⟨-, hcolumns, -⟩ := pushConjuncts_shape contents predicate.splitConjuncts child
  have hresidual : ∀ row, ((pushConjuncts predicate.splitConjuncts child).2.all fun c =>
      c.TrueOn ⟨child.columns contents⟩ row) = Expr.trueOn? ⟨child.columns contents⟩ row
        (Expr.combineConjuncts (pushConjuncts predicate.splitConjuncts child).2) := fun row =>
    (Expr.trueOn_combineConjuncts _ row _).symm
  simp only [hresidual] at hrows
  rw [rows, pushFilter]
  simp only [Expr.trueOn_splitConjuncts (e := predicate)]
  rw [← hrows]
  split
  · rename_i hnone
    simp [hnone, Expr.trueOn?]
  · rename_i combined hsome
    simp [hsome, Expr.trueOn?, rows, hcolumns]

variable (contents) in
theorem pushFilter_shape (child : LogicalNode) (predicate : Expr String) :
    (pushFilter child predicate).scanned = child.scanned ∧
      (pushFilter child predicate).columns contents = child.columns contents ∧
      (child.Unprojected → (pushFilter child predicate).Unprojected) := by
  have hshape := pushConjuncts_shape contents predicate.splitConjuncts child
  rw [pushFilter]
  simp only
  split
  · exact hshape
  · exact hshape

variable (contents) in
theorem pushDown_shape (node : LogicalNode) (hnode : node.Unprojected) :
    node.pushDown.scanned = node.scanned ∧ node.pushDown.columns contents = node.columns contents ∧
      node.pushDown.Unprojected := by
  induction node with
  | scan node => exact ⟨rfl, rfl, trivial⟩
  | filter child predicate ih =>
      obtain ⟨hscanned, hcolumns, hunprojected⟩ := ih hnode
      obtain ⟨hscanned', hcolumns', hunprojected'⟩ :=
        pushFilter_shape contents child.pushDown predicate
      exact ⟨hscanned'.trans hscanned, hcolumns'.trans hcolumns, hunprojected' hunprojected⟩
  | projection child projections ih => exact hnode.elim
  | join left right condition ihl ihr =>
      obtain ⟨hscannedl, hcolumnsl, hunprojectedl⟩ := ihl hnode.1
      obtain ⟨hscannedr, hcolumnsr, hunprojectedr⟩ := ihr hnode.2
      exact ⟨by rw [pushDown, scanned, hscannedl, hscannedr, scanned],
        by rw [pushDown, columns, hcolumnsl, hcolumnsr, columns], hunprojectedl, hunprojectedr⟩

/-- `push_down` keeps the columns and the rows of a plan of scans, joins and filters
in which no table is scanned twice, whatever the tables hold. -/
theorem pushDown_preserves_rows (contents : Contents) (node : LogicalNode) (hnode : node.Unprojected)
    (hplain : ∀ name ∈ node.scanned, Plain name) (hnodup : node.scanned.Nodup) :
    node.pushDown.columns contents = node.columns contents ∧
      node.pushDown.rows contents = node.rows contents := by
  refine ⟨(pushDown_shape contents node hnode).2.1, ?_⟩
  induction node with
  | scan node => rfl
  | filter child predicate ih =>
      obtain ⟨hscanned, hcolumns, hunprojected⟩ := pushDown_shape contents child hnode
      rw [pushDown, rows_pushFilter predicate hunprojected (hscanned ▸ hplain) (hscanned ▸ hnodup),
        rows, rows, hcolumns, ih hnode hplain hnodup]
  | projection child projections ih => exact hnode.elim
  | join left right condition ihl ihr =>
      rw [scanned] at hplain hnodup
      obtain ⟨hnodupl, hnodupr, -⟩ := List.nodup_append.mp hnodup
      have hl := ihl hnode.1 (fun name hname => hplain name (List.mem_append_left _ hname)) hnodupl
      have hr := ihr hnode.2 (fun name hname => hplain name (List.mem_append_right _ hname)) hnodupr
      rw [pushDown, rows, rows, hl, hr, (pushDown_shape contents left hnode.1).2.1,
        (pushDown_shape contents right hnode.2).2.1]

/-- Two tables of one integer column each. -/
def pairContents : Contents := fun name =>
  if name = "a" then ⟨⟨[⟨"x", .int, none⟩]⟩, [[.int 1], [.int 2]], by decide⟩
  else ⟨⟨[⟨"y", .int, none⟩]⟩, [[.int 1], [.int 3]], by decide⟩

/-- `a JOIN b ON a.x = b.y WHERE a.x > 0 AND b.y < 3` -/
def pairPlan : LogicalNode :=
  .filter (.join (.scan { tableName := "a" }) (.scan { tableName := "b" })
      (.comparison (.columnRef "a.x") .eq (.columnRef "b.y")))
    (.and (.comparison (.columnRef "a.x") .gt (.literal (.int 0)))
      (.comparison (.columnRef "b.y") .lt (.literal (.int 3))))

theorem pushDown_preserves_rows_pair :
    pairPlan.pushDown.rows pairContents = [[.int 1, .int 1]] := by
  have hplain : ∀ name ∈ pairPlan.scanned, Plain name := by decide +kernel
  rw [(pushDown_preserves_rows pairContents pairPlan ⟨trivial, trivial⟩ hplain (by decide +kernel)).2]
  decide +kernel

end LogicalNode

end DBEngine
