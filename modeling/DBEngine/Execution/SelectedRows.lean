import DBEngine.Execution.IndexSelection

/-!
# Selected rows

What a scan through an index yields compared with a scan of the whole table, and
with a scan whose predicate has some comparisons written the other way round.
With a whole literal the range of an index is the comparison itself; with a
fractional one a strict comparison loses the keys less than one away from it.
-/

set_option autoImplicit false

namespace DBEngine

open Binary64 (Extended rational)

/-! ## Whole literals -/

/-- A literal that is a whole number, or one beyond the largest float. -/
def Value.Whole (v : Value) : Prop := (∃ n : Int, v.key = .number (rational n)) ∨ v.key = .number ⊤

namespace Value

theorem Whole.isNumber {v : Value} (h : v.Whole) : v.IsNumber := by
  rcases h with ⟨n, hn⟩ | htop
  · exact ⟨rational n, hn⟩
  · exact ⟨⊤, htop⟩

theorem value_of_key {x : Float} {y : Extended} (h : (Value.float x).key = .number y) :
    Binary64.value x = some y := by
  unfold key at h
  cases hx : Binary64.value x with
  | none => simp [hx] at h
  | some z =>
      simp only [hx, Key.number.injEq] at h
      rw [h]

theorem not_isNumber_str (s : String) : ¬ (Value.str s).IsNumber := by
  rintro ⟨x, hx⟩
  simp [key] at hx

/-- The next number above a whole literal is a lower bound of the integers of 32 bits
above the literal. -/
theorem addOne_whole {v : Value} (h : v.Whole) {k : Int} (hk : formati.Fits k) :
    ∃ x lower y, v.key = .number x ∧ v.addOne = .ok lower ∧ lower.key = .number y ∧
      (y ≤ rational k ↔ x < rational k) := by
  rw [fits_formati] at hk
  have hint : ∀ n : Int, rational ((n + 1 : Int) : ℚ) ≤ rational k ↔ rational (n : ℚ) < rational k := by
    intro n
    rw [Binary64.rational_le_rational, Binary64.rational_lt_rational, Int.cast_le, Int.cast_lt]
    exact Int.add_one_le_iff
  cases v with
  | int n => exact ⟨_, .int (n + 1), _, rfl, rfl, rfl, hint n⟩
  | bool b =>
      refine ⟨_, .int ((if b then 1 else 0) + 1), _, rfl, rfl, rfl, ?_⟩
      have hcast : ((if b then 1 else 0 : Int) : ℚ) = if b then 1 else 0 := by cases b <;> simp
      rw [← hcast]
      exact hint _
  | str s => exact absurd h.isNumber (not_isNumber_str s)
  | float x =>
      rcases h with ⟨n, hn⟩ | htop
      · obtain ⟨y, hy, hle⟩ := Binary64.add_one_le_iff (k := k) (value_of_key hn) (by omega) (by omega)
        refine ⟨_, .float (x + 1), y, hn, rfl, by simp only [key, hy], hle.trans ?_⟩
        rw [Binary64.rational_lt_rational, Int.cast_lt]
      · refine ⟨⊤, .float (x + 1), ⊤, htop, rfl,
          by simp only [key, Binary64.value_top_add_one (value_of_key htop)], ?_⟩
        exact iff_of_false (fun h => Binary64.rational_ne_top _ (top_le_iff.mp h)) not_top_lt

/-- The next number below a whole literal is an upper bound of the integers of 32 bits
below the literal. -/
theorem subOne_whole {v : Value} (h : v.Whole) {k : Int} (hk : formati.Fits k) :
    ∃ x upper y, v.key = .number x ∧ v.subOne = .ok upper ∧ upper.key = .number y ∧
      (rational k ≤ y ↔ rational k < x) := by
  rw [fits_formati] at hk
  have hint : ∀ n : Int, rational k ≤ rational ((n - 1 : Int) : ℚ) ↔ rational k < rational (n : ℚ) := by
    intro n
    rw [Binary64.rational_le_rational, Binary64.rational_lt_rational, Int.cast_le, Int.cast_lt]
    exact Int.le_sub_one_iff
  cases v with
  | int n => exact ⟨_, .int (n - 1), _, rfl, rfl, rfl, hint n⟩
  | bool b =>
      refine ⟨_, .int ((if b then 1 else 0) - 1), _, rfl, rfl, rfl, ?_⟩
      have hcast : ((if b then 1 else 0 : Int) : ℚ) = if b then 1 else 0 := by cases b <;> simp
      rw [← hcast]
      exact hint _
  | str s => exact absurd h.isNumber (not_isNumber_str s)
  | float x =>
      rcases h with ⟨n, hn⟩ | htop
      · obtain ⟨y, hy, hle⟩ := Binary64.le_sub_one_iff (k := k) (value_of_key hn) (by omega) (by omega)
        refine ⟨_, .float (x - 1), y, hn, rfl, by simp only [key, hy], hle.trans ?_⟩
        rw [Binary64.rational_lt_rational, Int.cast_lt]
      · refine ⟨⊤, .float (x - 1), ⊤, htop, rfl,
          by simp only [key, Binary64.value_top_sub_one (value_of_key htop)], ?_⟩
        exact iff_of_true le_top (lt_top_iff_ne_top.mpr (Binary64.rational_ne_top _))

end Value

/-- With a whole literal the range read off a comparison is the comparison. -/
theorem ComparisonOp.apply_whole {op : ComparisonOp} {v : Value} (hv : v.Whole) (hop : op ≠ .neq)
    {k : Int} (hk : formati.Fits k) : op.apply (.int k) v = .ok (op.covers v k) := by
  obtain ⟨x, hx⟩ := hv.isNumber
  have hkey : (Value.int k).key = .number (rational k) := rfl
  cases op with
  | eq => rw [apply, covers, Value.eq_comm]
  | neq => exact absurd rfl hop
  | gt =>
      obtain ⟨x', lower, y, hx', hadd, hlower, hle⟩ := Value.addOne_whole hv hk
      simp only [apply, Value.gt, Value.compareWith, hkey, hx', covers, hadd, Value.above_eq hlower, hle]
  | gte => simp only [apply, Value.ge, Value.compareWith, hkey, hx, covers, Value.above_eq hx]
  | lt =>
      obtain ⟨x', upper, y, hx', hsub, hupper, hle⟩ := Value.subOne_whole hv hk
      simp only [apply, Value.lt, Value.compareWith, hkey, hx', covers, hsub, Value.below_eq hupper, hle]
  | lte => simp only [apply, Value.le, Value.compareWith, hkey, hx, covers, Value.below_eq hx]

/-! ## Two selections of the rows visited -/

section Selections

variable {τ : Type} {table : Table τ} {records : List Record}

/-- A predicate raises on one of the rows that are visited. -/
def RaisesOn (schema : Schema) (records : List Record) (e : Expr String) (visits : Record → Bool) : Prop :=
  ∃ r ∈ records, visits r = true ∧ e.definedOn schema r.values = false

/-- What a scan yields tells rows with different values or record ids apart. -/
theorem factors_item (hrows : table.Holds records) (yieldRid : Bool) {p : Record → Prop}
    (hp : ∀ r r' : Record, r.values = r'.values → p r → p r') :
    Selection.Factors (records : Multiset Record) (fun r => r.item yieldRid) p := by
  intro r hr r' hr' hitem
  apply hp
  cases yieldRid with
  | false => exact hitem
  | true =>
      have hrid : r.rid = r'.rid := by
        simp only [Record.item, if_true, List.cons.injEq, Value.int.injEq, Nat.cast_inj, and_true] at hitem
        exact Prod.ext hitem.1 hitem.2
      exact congrArg Record.values (List.inj_on_of_nodup_map hrows.nodup_rid hr hr' hrid)

theorem emitAnswer_raises {schema : Schema} {e : Expr String} {visits : Record → Bool}
    (h : RaisesOn schema records e visits) (yieldRid : Bool) : emitAnswer schema (some e) yieldRid
      ((records : Multiset Record).filter fun r => visits r = true) = none := by
  obtain ⟨r, hr, hvisits, hdefined⟩ := h
  unfold emitAnswer
  refine if_neg fun hall => ?_
  have hr' := hall r (Multiset.mem_filter.mpr ⟨hr, hvisits⟩)
  rw [Option.all_some, hdefined] at hr'
  exact Bool.false_ne_true hr'

theorem emitAnswer_returns {schema : Schema} {e : Expr String} {visits : Record → Bool}
    (h : ¬ RaisesOn schema records e visits) (yieldRid : Bool) : emitAnswer schema (some e) yieldRid
      ((records : Multiset Record).filter fun r => visits r = true) =
        some (((records : Multiset Record).filter fun r =>
          e.TrueOn schema r.values = true ∧ visits r = true).map fun r => r.item yieldRid) := by
  unfold emitAnswer
  rw [if_pos, Multiset.filter_filter]
  · rfl
  · intro r hr
    obtain ⟨hr, hvisits⟩ := Multiset.mem_filter.mp hr
    by_contra hdefined
    rw [Option.all_some, Bool.not_eq_true] at hdefined
    exact h ⟨r, hr, hvisits, hdefined⟩

/-- Two scans that visit different rows give the same answer exactly when the predicate
cannot be bound, raises on a row visited by each, or raises on none and is true only of
rows that are visited by both or by neither. -/
theorem scanAnswer_eq_iff (hrows : table.Holds records) (schema : Schema) (e : Expr String)
    (yieldRid : Bool) {a b : Record → Bool} (ha : ∀ r r' : Record, r.values = r'.values → a r = a r')
    (hb : ∀ r r' : Record, r.values = r'.values → b r = b r') :
    scanAnswer schema (some e) yieldRid ((records : Multiset Record).filter fun r => a r = true) =
        scanAnswer schema (some e) yieldRid ((records : Multiset Record).filter fun r => b r = true) ↔
      (e.binds schema = true → (RaisesOn schema records e a ↔ RaisesOn schema records e b) ∧
        (¬ RaisesOn schema records e a →
          ∀ r ∈ records, e.TrueOn schema r.values = true → (a r = true ↔ b r = true))) := by
  unfold scanAnswer
  rw [Option.all_some]
  by_cases hbinds : e.binds schema = true
  · rw [if_pos hbinds, if_pos hbinds]
    have hfactors : ∀ {visits : Record → Bool},
        (∀ r r' : Record, r.values = r'.values → visits r = visits r') →
          Selection.Factors (records : Multiset Record) (fun r => r.item yieldRid)
            fun r => e.TrueOn schema r.values = true ∧ visits r = true := by
      intro visits hvisits
      apply factors_item hrows
      rintro r r' hvalues ⟨htrue, hr⟩
      exact ⟨hvalues ▸ htrue, hvisits r r' hvalues ▸ hr⟩
    by_cases hra : RaisesOn schema records e a
    · rw [emitAnswer_raises hra]
      by_cases hrb : RaisesOn schema records e b
      · rw [emitAnswer_raises hrb]
        exact iff_of_true rfl fun _ => ⟨iff_of_true hra hrb, fun h => absurd hra h⟩
      · rw [emitAnswer_returns hrb]
        exact iff_of_false (by simp) fun h => hrb ((h hbinds).1.mp hra)
    · rw [emitAnswer_returns hra]
      by_cases hrb : RaisesOn schema records e b
      · rw [emitAnswer_raises hrb]
        exact iff_of_false (by simp) fun h => hra ((h hbinds).1.mpr hrb)
      · rw [emitAnswer_returns hrb, Option.some.injEq,
          Selection.map_filter_eq_iff (hfactors ha) (hfactors hb)]
        constructor
        · intro h _
          refine ⟨iff_of_false hra hrb, fun _ r hr htrue => ?_⟩
          have hboth := h r hr
          rwa [and_iff_right htrue, and_iff_right htrue] at hboth
        · intro h r hr
          exact and_congr_right fun htrue => (h hbinds).2 hra r hr htrue
  · rw [if_neg hbinds, if_neg hbinds]
    exact iff_of_true rfl fun h => absurd h hbinds

end Selections

/-! ## Predicates over comparisons -/

namespace Expr

/-- A predicate built with `And` and `Or` from the given kind of comparisons. -/
inductive BuiltFrom (atom : Expr String → Prop) : Expr String → Prop
  | atom (c : Expr String) (h : atom c) : BuiltFrom atom c
  | and (left right : Expr String) (hl : BuiltFrom atom left) (hr : BuiltFrom atom right) :
      BuiltFrom atom (.and left right)
  | or (left right : Expr String) (hl : BuiltFrom atom left) (hr : BuiltFrom atom right) :
      BuiltFrom atom (.or left right)

/-- `column op number` -/
def NumberOnRight (c : Expr String) : Prop :=
  ∃ name op value, c = .comparison (.columnRef name) op (.literal value) ∧ op ≠ .neq ∧ value.IsNumber

/-- `column op whole` or `whole op column` -/
def WholeComparison (c : Expr String) : Prop :=
  ∃ name op value, (c = .comparison (.columnRef name) op (.literal value) ∨
    c = .comparison (.literal value) op (.columnRef name)) ∧ op ≠ .neq ∧ value.Whole

/-- What is read off a conjunct of such a predicate is read off one of its comparisons. -/
theorem BuiltFrom.atom_of_reading {atom : Expr String → Prop}
    (hatom : ∀ c, atom c → c.splitConjuncts = [c]) {p : Expr String} (h : BuiltFrom atom p) :
    ∀ c ∈ p.splitConjuncts, ∀ item, c.reading = some item → atom c := by
  induction h with
  | atom d hd =>
      intro c hc item _
      rw [hatom d hd, List.mem_singleton] at hc
      rwa [hc]
  | and left right _ _ ihl ihr =>
      intro c hc item hitem
      rcases List.mem_append.mp hc with hc | hc
      · exact ihl c hc item hitem
      · exact ihr c hc item hitem
  | or left right _ _ _ _ =>
      intro c hc item hitem
      rw [List.mem_singleton.mp hc] at hitem
      simp [reading] at hitem

end Expr

namespace PhysicalPlanner

open DBEngine.Expr (BuiltFrom NumberOnRight WholeComparison)

variable {τ : Type} {table : Table τ}

theorem readsNumbers_of_numberOnRight {p : Expr String} (h : BuiltFrom NumberOnRight p) :
    ReadsNumbers table p.splitConjuncts := by
  intro c hc name op value hreading _
  obtain ⟨name', op', value', rfl, hop, hvalue⟩ := h.atom_of_reading
    (by rintro _ ⟨_, _, _, rfl, -⟩; rfl) c hc _ hreading
  simp only [Expr.reading, asColAndLiteral, Option.map_some, Option.some.injEq, Prod.mk.injEq] at hreading
  obtain ⟨-, rfl, rfl⟩ := hreading
  exact ⟨hvalue, hop⟩

/-- A test of the key is a test of the values of a row. -/
theorem passesCounted_congr (test : Int → Expr String → Bool) (table : Table τ)
    (conjuncts : List (Expr String)) {r r' : Record} (h : r.values = r'.values) :
    passesCounted test table conjuncts r = passesCounted test table conjuncts r' := by
  unfold passesCounted Record.intAt
  rw [h]

section Answers

variable [IndexTree τ] [Multimap τ] {catalog : Catalog τ} {node : LogicalScan} {records : List Record}

/-- For a predicate built with `And` and `Or` from comparisons of a column with a number
on the right, the planned scan yields what a scan of the whole table yields exactly when
every row the predicate is true of is in the range read off the predicate, and when the
predicate raises on some row, it does so on one in the range. -/
theorem planScan_eq_seqScan_iff (hcatalog : catalog.tables.get? node.tableName = some table)
    (hrows : table.Holds records) (hindexed : table.Indexed records) (p : Expr String)
    (hp : BuiltFrom NumberOnRight p) (hnode : node.predicate = some p) :
    answerOf (planScan catalog node) =
        answerOf (Operator.openSeqScan table node.predicate node.yieldRid) ↔
      (p.binds table.scanSchema = true →
        (RaisesOn table.scanSchema records p (fun _ => true) →
          RaisesOn table.scanSchema records p (visited table p.splitConjuncts)) ∧
        (¬ RaisesOn table.scanSchema records p (fun _ => true) →
          ∀ r ∈ records, p.TrueOn table.scanSchema r.values = true →
            visited table p.splitConjuncts r = true)) := by
  have hwhole : (records : Multiset Record) =
      (records : Multiset Record).filter fun r => (fun _ : Record => true) r = true := by
    exact (Multiset.filter_eq_self.mpr fun _ _ => rfl).symm
  rw [answer_planScan hnode hcatalog hrows hindexed (readsNumbers_of_numberOnRight hp),
    answer_openSeqScan hrows, hnode]
  conv_lhs => rhs; rw [hwhole]
  have hcongr : ∀ r r' : Record, r.values = r'.values →
      visited table p.splitConjuncts r = visited table p.splitConjuncts r' :=
    fun _ _ => passesCounted_congr Expr.covers table _
  rw [scanAnswer_eq_iff hrows _ _ _ hcongr fun _ _ _ => rfl]
  refine imp_congr_right fun _ => ?_
  have hsome : RaisesOn table.scanSchema records p (visited table p.splitConjuncts) →
      RaisesOn table.scanSchema records p fun _ => true := by
    rintro ⟨r, hr, -, hdefined⟩
    exact ⟨r, hr, rfl, hdefined⟩
  constructor
  · rintro ⟨hraises, hselected⟩
    refine ⟨hraises.mpr, fun h r hr htrue => ?_⟩
    exact (hselected (fun h' => h (hsome h')) r hr htrue).mpr rfl
  · rintro ⟨hraises, hselected⟩
    refine ⟨⟨hsome, hraises⟩, fun h r hr htrue => ?_⟩
    exact iff_of_true (hselected (fun h' => h (hraises h')) r hr htrue) rfl

end Answers

/-- A table with one row and an index on its column. -/
def sixTable : Table EntryList :=
  ⟨"t", ⟨[⟨"k", .int, none⟩]⟩, [((1, 0), [6, 0, 0, 0])], [("k", ⟨3, "by_k", ⟨[(6, (1, 0))]⟩⟩)]⟩

def sixCatalog : Catalog EntryList := ⟨[("t", sixTable)]⟩

/-- The row of the table. -/
def sixRows : List Record := [⟨[.int 6], (1, 0)⟩]

theorem sixTable_holds : sixTable.Holds sixRows := ⟨rfl, by decide⟩

theorem sixTable_indexed : sixTable.Indexed sixRows where
  column := by
    intro item hitem
    obtain rfl := List.mem_singleton.mp hitem
    exact ⟨0, ⟨"k", .int, none⟩, by decide, rfl, rfl⟩
  entries := by
    intro item hitem i hi
    obtain rfl := List.mem_singleton.mp hitem
    have hzero : sixTable.schema.columnNames.get? "k" = some 0 := by decide
    obtain rfl := Option.some.inj (hzero.symm.trans hi)
    rfl

/-- `SELECT * FROM t WHERE predicate` -/
def scanSix (predicate : Expr String) : LogicalScan := { tableName := "t", predicate := some predicate }

/-- `t.k > value` -/
def keyAbove (value : Float) : Expr String :=
  .comparison (.columnRef "t.k") .gt (.literal (.float value))

theorem float_isNumber {x : Float} {y : Extended} (h : Binary64.value x = some y) :
    (Value.float x).IsNumber := ⟨y, by simp only [Value.key, h]⟩

theorem planScan_eq_seqScan_iff_six :
    answerOf (planScan sixCatalog (scanSix (keyAbove 5))) =
      answerOf (Operator.openSeqScan sixTable (some (keyAbove 5)) false) := by
  have hvalue : Binary64.value 5 = some (rational 5) := by decide +kernel
  have hnumber : BuiltFrom NumberOnRight (keyAbove 5) :=
    .atom _ ⟨_, _, _, rfl, by decide, float_isNumber hvalue⟩
  have hcatalog : sixCatalog.tables.get? (scanSix (keyAbove 5)).tableName = some sixTable := rfl
  refine (planScan_eq_seqScan_iff hcatalog sixTable_holds sixTable_indexed _ hnumber rfl).mpr
    fun _ => ⟨?_, fun _ => ?_⟩
  · rintro ⟨r, hr, -, hdefined⟩
    rw [List.mem_singleton.mp hr] at hdefined
    exact absurd hdefined (by decide +kernel)
  · intro r hr _
    rw [List.mem_singleton.mp hr]
    decide +kernel

/-- The range of `k > 5.5` starts at 6.5, and the row with 6 is lost. -/
theorem planScan_loses_six :
    sixTable.Holds sixRows ∧ sixTable.Indexed sixRows ∧ BuiltFrom NumberOnRight (keyAbove 5.5) ∧
      answerOf (planScan sixCatalog (scanSix (keyAbove 5.5))) = some 0 ∧
      answerOf (Operator.openSeqScan sixTable (some (keyAbove 5.5)) false) = some {[.int 6]} := by
  have hvalue : Binary64.value 5.5 = some (rational (11 / 2)) := by decide +kernel
  refine ⟨sixTable_holds, sixTable_indexed, .atom _ ⟨_, _, _, rfl, by decide, float_isNumber hvalue⟩, ?_, ?_⟩
  · decide +kernel
  · decide +kernel

/-! ## Comparisons the other way round -/

/-- Some comparisons of a column with a literal are written the other way round. -/
inductive Mirrored : Expr String → Expr String → Prop
  | same (c : Expr String) : Mirrored c c
  | mirror (name : String) (op : ComparisonOp) (value : Value) :
      Mirrored (.comparison (.columnRef name) op (.literal value))
        (.comparison (.literal value) op.mirror (.columnRef name))
  | and (left left' right right' : Expr String) (hl : Mirrored left left') (hr : Mirrored right right') :
      Mirrored (.and left right) (.and left' right')
  | or (left left' right right' : Expr String) (hl : Mirrored left left') (hr : Mirrored right right') :
      Mirrored (.or left right) (.or left' right')

/-- A comparison and its mirror agree, or raise both. -/
theorem toOption_apply_mirror (op : ComparisonOp) (a b : Value) :
    (op.mirror.apply b a).toOption = (op.apply a b).toOption := by
  cases op with
  | eq => rw [ComparisonOp.mirror, ComparisonOp.apply, ComparisonOp.apply, Value.eq_comm]
  | neq => rw [ComparisonOp.mirror, ComparisonOp.apply, ComparisonOp.apply, Value.eq_comm]
  | lt =>
      simp only [ComparisonOp.mirror, ComparisonOp.apply, Value.lt, Value.gt, Value.compareWith]
      cases a.key <;> cases b.key <;> rfl
  | lte =>
      simp only [ComparisonOp.mirror, ComparisonOp.apply, Value.le, Value.ge, Value.compareWith]
      cases a.key <;> cases b.key <;> rfl
  | gt =>
      simp only [ComparisonOp.mirror, ComparisonOp.apply, Value.lt, Value.gt, Value.compareWith]
      cases a.key <;> cases b.key <;> rfl
  | gte =>
      simp only [ComparisonOp.mirror, ComparisonOp.apply, Value.le, Value.ge, Value.compareWith]
      cases a.key <;> cases b.key <;> rfl

namespace Mirrored

variable {p p' : Expr String}

/-- Both predicates have the same value on every row. -/
theorem valueIn_eq (h : Mirrored p p') (schema : Schema) (row : List Value) :
    p'.valueIn schema row = p.valueIn schema row := by
  induction h with
  | same c => rfl
  | mirror name op value =>
      simp only [Expr.valueIn]
      cases Expr.lookup schema row name with
      | none => rfl
      | some k =>
          have happly := toOption_apply_mirror op k value
          simp only
          cases hl : op.mirror.apply value k <;> cases hr : op.apply k value <;>
            simp_all [Except.toOption]
  | and left left' right right' _ _ ihl ihr => rw [Expr.valueIn, Expr.valueIn, ihl, ihr]
  | or left left' right right' _ _ ihl ihr => rw [Expr.valueIn, Expr.valueIn, ihl, ihr]

theorem binds_eq (h : Mirrored p p') (schema : Schema) : p'.binds schema = p.binds schema := by
  induction h with
  | same c => rfl
  | mirror name op value =>
      unfold Expr.binds
      simp only [Expr.bind]
      cases schema.getIndex name <;> rfl
  | and left left' right right' _ _ ihl ihr => rw [Expr.binds_and, Expr.binds_and, ihl, ihr]
  | or left left' right right' _ _ ihl ihr =>
      have hor : ∀ left right : Expr String,
          (left.or right).binds schema = (left.binds schema && right.binds schema) := by
        intro left right
        unfold Expr.binds
        rw [Expr.bind]
        cases left.bind schema with
        | error e => rfl
        | ok l => cases right.bind schema <;> rfl
      rw [hor, hor, ihl, ihr]

theorem wholeComparison (h : Mirrored p p') (hp : BuiltFrom WholeComparison p) :
    BuiltFrom WholeComparison p' := by
  induction h with
  | same c => exact hp
  | mirror name op value =>
      cases hp with
      | atom c hc =>
          obtain ⟨name', op', value', heq | heq, hop, hvalue⟩ := hc
          · obtain ⟨rfl, rfl, rfl⟩ : name = name' ∧ op = op' ∧ value = value' := by simpa using heq
            refine .atom _ ⟨name, op.mirror, value, .inr rfl, fun hneq => hop ?_, hvalue⟩
            cases op <;> first | rfl | simp [ComparisonOp.mirror] at hneq
          · simp at heq
  | and left left' right right' _ _ ihl ihr =>
      cases hp with
      | atom c hc =>
          obtain ⟨_, _, _, heq | heq, -⟩ := hc <;> simp at heq
      | and _ _ hl hr => exact .and _ _ (ihl hl) (ihr hr)
  | or left left' right right' _ _ ihl ihr =>
      cases hp with
      | atom c hc =>
          obtain ⟨_, _, _, heq | heq, -⟩ := hc <;> simp at heq
      | or _ _ hl hr => exact .or _ _ (ihl hl) (ihr hr)

end Mirrored

theorem readsNumbers_of_wholeComparison {p : Expr String} (h : BuiltFrom WholeComparison p) :
    ReadsNumbers table p.splitConjuncts := by
  intro c hc name op value hreading _
  obtain ⟨name', op', value', rfl | rfl, hop, hvalue⟩ := h.atom_of_reading
    (by rintro _ ⟨_, _, _, rfl | rfl, -⟩ <;> rfl) c hc _ hreading
  all_goals
    simp only [Expr.reading, asColAndLiteral, Option.map_some, Option.some.injEq, Prod.mk.injEq] at hreading
    obtain ⟨-, rfl, rfl⟩ := hreading
    exact ⟨hvalue.isNumber, hop⟩

/-- A key satisfies a comparison that is read with the column on the left, whatever the
order of its sides. -/
def holdsRead (k : Int) (c : Expr String) : Bool :=
  match c.reading with
  | some (_, op, value) =>
      match op.apply (.int k) value with
      | .ok b => b
      | .error _ => false
  | none => true

/-- For whole literals the rows visited are those whose key satisfies the comparisons as
they are read. -/
theorem visited_eq_holdsRead [IndexTree τ] [Multimap τ] {records : List Record}
    (hrows : table.Holds records) (hindexed : table.Indexed records) {p : Expr String}
    (hp : BuiltFrom WholeComparison p) {r : Record} (hr : r ∈ records) :
    visited table p.splitConjuncts r = passesCounted holdsRead table p.splitConjuncts r := by
  unfold visited passesCounted
  cases hcolumn : indexColumn table.indices p.splitConjuncts with
  | none => rfl
  | some column =>
      obtain ⟨index, hindex⟩ := Dict.has_iff.mp (has_indexColumn hcolumn)
      have hmem := Dict.mem_of_get? hindex
      obtain ⟨i, -, hi, -, -⟩ := hindexed.column _ hmem
      have hfits := (hrows.int_of_index hindexed hmem hi hr).2
      simp only [hi]
      rw [Bool.eq_iff_iff, List.all_eq_true, List.all_eq_true]
      refine forall₂_congr fun c hc => ?_
      unfold Expr.covers holdsRead
      cases hreading : c.reading with
      | none => rfl
      | some item =>
          obtain ⟨name, op, value⟩ := item
          obtain ⟨name', op', value', hatom, hop, hvalue⟩ := hp.atom_of_reading
            (by rintro _ ⟨_, _, _, rfl | rfl, -⟩ <;> rfl) c (Expr.mem_of_mem_counted hc).1 _ hreading
          have hsame : op = op' ∧ value = value' := by
            rcases hatom with rfl | rfl
            all_goals
              simp only [Expr.reading, asColAndLiteral, Option.map_some, Option.some.injEq,
                Prod.mk.injEq] at hreading
              exact ⟨hreading.2.1.symm, hreading.2.2.symm⟩
          obtain ⟨rfl, rfl⟩ := hsame
          simp only [ComparisonOp.apply_whole hvalue hop hfits]

/-- Writing comparisons with whole literals the other way round leaves what the planned
scan yields exactly when the predicate raises on rows that are read through both forms
or through neither, and then the rows it is true of that satisfy the comparisons counted,
read with the column on the left, are the same in both forms. -/
theorem planScan_mirrored_iff [IndexTree τ] [Multimap τ] {catalog : Catalog τ} {records : List Record}
    (node : LogicalScan) (hcatalog : catalog.tables.get? node.tableName = some table)
    (hrows : table.Holds records) (hindexed : table.Indexed records) (p p' : Expr String)
    (hp : BuiltFrom WholeComparison p) (hmirrored : Mirrored p p') :
    answerOf (planScan catalog { node with predicate := some p }) =
        answerOf (planScan catalog { node with predicate := some p' }) ↔
      (p.binds table.scanSchema = true →
        (RaisesOn table.scanSchema records p (passesCounted holdsRead table p.splitConjuncts) ↔
          RaisesOn table.scanSchema records p (passesCounted holdsRead table p'.splitConjuncts)) ∧
        (¬ RaisesOn table.scanSchema records p (passesCounted holdsRead table p.splitConjuncts) →
          ∀ r ∈ records, p.TrueOn table.scanSchema r.values = true →
            (passesCounted holdsRead table p.splitConjuncts r = true ↔
              passesCounted holdsRead table p'.splitConjuncts r = true))) := by
  have hp' := hmirrored.wholeComparison hp
  have hplan : ∀ {q : Expr String}, BuiltFrom WholeComparison q →
      answerOf (planScan catalog { node with predicate := some q }) =
        scanAnswer table.scanSchema (some q) node.yieldRid ((records : Multiset Record).filter
          fun r => passesCounted holdsRead table q.splitConjuncts r = true) := by
    intro q hq
    have hvisits : ((records : Multiset Record).filter fun r => visited table q.splitConjuncts r = true) =
        (records : Multiset Record).filter fun r =>
          passesCounted holdsRead table q.splitConjuncts r = true := by
      refine Multiset.filter_congr fun r hr => ?_
      rw [visited_eq_holdsRead hrows hindexed hq hr]
    rw [← hvisits]
    exact answer_planScan rfl hcatalog hrows hindexed (readsNumbers_of_wholeComparison hq)
  have hanswer : ∀ records, scanAnswer table.scanSchema (some p') node.yieldRid records =
      scanAnswer table.scanSchema (some p) node.yieldRid records := by
    intro records
    apply scanAnswer_congr
    · exact hmirrored.binds_eq _
    · intro row
      simp only [Option.all_some, Expr.definedOn, hmirrored.valueIn_eq]
    · intro row
      simp only [Expr.trueOn?, Expr.trueOn_eq, hmirrored.valueIn_eq]
  rw [hplan hp, hplan hp', hanswer]
  exact scanAnswer_eq_iff hrows _ _ _ (fun _ _ => passesCounted_congr holdsRead table _)
    fun _ _ => passesCounted_congr holdsRead table _

/-- `t.k = value` -/
def keyIs (value : Float) : Expr String :=
  .comparison (.columnRef "t.k") .eq (.literal (.float value))

/-- `value = t.k` -/
def isKey (value : Float) : Expr String :=
  .comparison (.literal (.float value)) .eq (.columnRef "t.k")

/-- `value < t.k` -/
def belowKey (value : Float) : Expr String :=
  .comparison (.literal (.float value)) .lt (.columnRef "t.k")

theorem whole_five : (Value.float 5).Whole := by
  have hvalue : Binary64.value 5 = some (rational ((5 : Int) : ℚ)) := by decide +kernel
  exact .inl ⟨5, by simp only [Value.key, hvalue]⟩

theorem planScan_mirrored_iff_six :
    answerOf (planScan sixCatalog { scanSix (keyIs 5) with predicate := some (keyIs 5) }) =
      answerOf (planScan sixCatalog { scanSix (keyIs 5) with predicate := some (isKey 5) }) := by
  refine (planScan_mirrored_iff (scanSix (keyIs 5)) rfl sixTable_holds sixTable_indexed (keyIs 5) (isKey 5)
    (.atom _ ⟨_, _, _, .inl rfl, by decide, whole_five⟩) (.mirror _ _ _)).mpr fun _ => ⟨?_, fun _ => ?_⟩
  · have hraises : ∀ visits, ¬ RaisesOn sixTable.scanSchema sixRows (keyIs 5) visits := by
      rintro visits ⟨r, hr, -, hdefined⟩
      rw [List.mem_singleton.mp hr] at hdefined
      exact absurd hdefined (by decide +kernel)
    exact iff_of_false (hraises _) (hraises _)
  · intro r hr _
    rw [List.mem_singleton.mp hr]
    decide +kernel

/-- `k > 5` shows the row with 6, `5 < k` is read as `k < 5` and does not. -/
theorem planScan_mirrored_loses_six :
    sixTable.Holds sixRows ∧ sixTable.Indexed sixRows ∧ BuiltFrom WholeComparison (keyAbove 5) ∧
      Mirrored (keyAbove 5) (belowKey 5) ∧
      answerOf (planScan sixCatalog (scanSix (keyAbove 5))) = some {[.int 6]} ∧
      answerOf (planScan sixCatalog (scanSix (belowKey 5))) = some 0 := by
  refine ⟨sixTable_holds, sixTable_indexed, .atom _ ⟨_, _, _, .inl rfl, by decide, whole_five⟩,
    .mirror _ _ _, ?_, ?_⟩
  · decide +kernel
  · decide +kernel

end PhysicalPlanner

end DBEngine
