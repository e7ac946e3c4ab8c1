import DBEngine.Execution.PhysicalPlanner
import DBEngine.Execution.ScanRows

/-!
# Index selection

The planner turns the conjuncts of a scan's predicate into a range of keys of one
index.  The range holds the keys that satisfy every comparison on the column of
the index from the last equality on, each read with the column on the left, and
a strict comparison as one with the literal one further.
-/

set_option autoImplicit false

namespace DBEngine

open Binary64 (Extended rational)

/-! ## Keys in a range -/

/-- A value that compares as a number. -/
def Value.IsNumber (v : Value) : Prop := ∃ x, v.key = .number x

/-- A key satisfies a comparison as the planner reads it off. -/
def ComparisonOp.covers (op : ComparisonOp) (value : Value) (k : Int) : Bool :=
  match op with
  | .eq => value.eq (.int k)
  | .neq => true
  | .gt =>
      match value.addOne with
      | .ok lower => Value.above (some lower) k
      | .error _ => false
  | .gte => Value.above (some value) k
  | .lt =>
      match value.subOne with
      | .ok upper => Value.below (some upper) k
      | .error _ => false
  | .lte => Value.below (some value) k

/-- A key lies between two bounds. -/
def inBounds (bounds : Option Value × Option Value) (k : Int) : Bool :=
  Value.above bounds.1 k && Value.below bounds.2 k

namespace Value

theorem above_eq {value : Value} {x : Extended} (h : value.key = .number x) (k : Int) :
    above (some value) k = decide (x ≤ rational k) := by
  simp only [above, h]

theorem below_eq {value : Value} {x : Extended} (h : value.key = .number x) (k : Int) :
    below (some value) k = decide (rational k ≤ x) := by
  simp only [below, h]

theorem eq_int {value : Value} {x : Extended} (h : value.key = .number x) (k : Int) :
    value.eq (.int k) = decide (x = rational k) := by
  have hkey : (Value.int k).key = .number (rational k) := rfl
  simp only [eq, h, hkey]

theorem isBound_some {value : Value} : isBound (some value) = true ↔ value.IsNumber := by
  unfold isBound IsNumber
  cases hkey : value.key <;> simp [hkey]

/-- A number equals a key exactly when the key is neither above nor below it. -/
theorem eq_int_eq {value : Value} (h : value.IsNumber) (k : Int) :
    value.eq (.int k) = (above (some value) k && below (some value) k) := by
  obtain ⟨x, hx⟩ := h
  rw [eq_int hx, above_eq hx, below_eq hx, ← Bool.decide_and]
  exact decide_eq_decide.mpr le_antisymm_iff

theorem addOne_isNumber {value : Value} (h : value.IsNumber) :
    ∃ lower, value.addOne = .ok lower ∧ lower.IsNumber := by
  obtain ⟨x, hx⟩ := h
  cases value with
  | int v => exact ⟨.int (v + 1), rfl, _, rfl⟩
  | bool b => exact ⟨.int ((if b then 1 else 0) + 1), rfl, _, rfl⟩
  | str s => simp [key] at hx
  | float y =>
      refine ⟨.float (y + 1), rfl, ?_⟩
      cases hvalue : Binary64.value y with
      | none => simp [key, hvalue] at hx
      | some z =>
          obtain ⟨w, hw⟩ := Option.isSome_iff_exists.mp
            (Binary64.isSome_value_add_one (by rw [hvalue]; rfl : (Binary64.value y).isSome))
          exact ⟨w, by simp only [key, hw]⟩

theorem subOne_isNumber {value : Value} (h : value.IsNumber) :
    ∃ upper, value.subOne = .ok upper ∧ upper.IsNumber := by
  obtain ⟨x, hx⟩ := h
  cases value with
  | int v => exact ⟨.int (v - 1), rfl, _, rfl⟩
  | bool b => exact ⟨.int ((if b then 1 else 0) - 1), rfl, _, rfl⟩
  | str s => simp [key] at hx
  | float y =>
      refine ⟨.float (y - 1), rfl, ?_⟩
      cases hvalue : Binary64.value y with
      | none => simp [key, hvalue] at hx
      | some z =>
          obtain ⟨w, hw⟩ := Option.isSome_iff_exists.mp
            (Binary64.isSome_value_sub_one (by rw [hvalue]; rfl : (Binary64.value y).isSome))
          exact ⟨w, by simp only [key, hw]⟩

end Value

namespace PhysicalPlanner

/-- Raising a lower bound. -/
theorem maxBound_spec {bound : Option Value} {x : Value} (hbound : Value.isBound bound = true)
    (hx : x.IsNumber) : ∃ s, maxBound bound x = .ok s ∧ s.IsNumber ∧
      ∀ k, Value.above (some s) k = (Value.above bound k && Value.above (some x) k) := by
  cases bound with
  | none => exact ⟨x, rfl, hx, fun k => by rw [Value.above, Bool.true_and]⟩
  | some b =>
      have hnumber := Value.isBound_some.mp hbound
      obtain ⟨u, hu⟩ := hnumber
      obtain ⟨v, hv⟩ := hx
      have hgt : x.gt b = .ok (decide (u < v)) := by
        simp only [Value.gt, Value.compareWith, hu, hv]
      by_cases hless : u < v
      · refine ⟨x, by simp [maxBound, hgt, hless, bind, Except.bind, pure, Except.pure], ⟨v, hv⟩, fun k => ?_⟩
        rw [Value.above_eq hv, Value.above_eq hu, ← Bool.decide_and]
        exact decide_eq_decide.mpr ⟨fun h => ⟨hless.le.trans h, h⟩, And.right⟩
      · refine ⟨b, by simp [maxBound, hgt, hless, bind, Except.bind, pure, Except.pure], ⟨u, hu⟩, fun k => ?_⟩
        rw [Value.above_eq hv, Value.above_eq hu, ← Bool.decide_and]
        exact decide_eq_decide.mpr ⟨fun h => ⟨h, (not_lt.mp hless).trans h⟩, And.left⟩

/-- Lowering an upper bound. -/
theorem minBound_spec {bound : Option Value} {x : Value} (hbound : Value.isBound bound = true)
    (hx : x.IsNumber) : ∃ s, minBound bound x = .ok s ∧ s.IsNumber ∧
      ∀ k, Value.below (some s) k = (Value.below bound k && Value.below (some x) k) := by
  cases bound with
  | none => exact ⟨x, rfl, hx, fun k => by rw [Value.below, Bool.true_and]⟩
  | some b =>
      have hnumber := Value.isBound_some.mp hbound
      obtain ⟨u, hu⟩ := hnumber
      obtain ⟨v, hv⟩ := hx
      have hlt : x.lt b = .ok (decide (v < u)) := by
        simp only [Value.lt, Value.compareWith, hu, hv]
      by_cases hless : v < u
      · refine ⟨x, by simp [minBound, hlt, hless, bind, Except.bind, pure, Except.pure], ⟨v, hv⟩, fun k => ?_⟩
        rw [Value.below_eq hv, Value.below_eq hu, ← Bool.decide_and]
        exact decide_eq_decide.mpr ⟨fun h => ⟨h.trans hless.le, h⟩, And.right⟩
      · refine ⟨b, by simp [minBound, hlt, hless, bind, Except.bind, pure, Except.pure], ⟨u, hu⟩, fun k => ?_⟩
        rw [Value.below_eq hv, Value.below_eq hu, ← Bool.decide_and]
        exact decide_eq_decide.mpr ⟨fun h => ⟨h, h.trans (not_lt.mp hless)⟩, And.left⟩

/-- One comparison narrows the bounds to the keys that satisfy it; an equality
forgets what the bounds were. -/
theorem tightenBounds_spec {op : ComparisonOp} {value : Value} {bounds : Option Value × Option Value}
    (hvalue : value.IsNumber) (hlower : Value.isBound bounds.1 = true)
    (hupper : Value.isBound bounds.2 = true) : ∃ tight, tightenBounds op value bounds = .ok tight ∧
      Value.isBound tight.1 = true ∧ Value.isBound tight.2 = true ∧
      ∀ k, inBounds tight k = ((op = .eq || inBounds bounds k) && op.covers value k) := by
  unfold inBounds
  cases op with
  | eq =>
      have hbound := Value.isBound_some.mpr hvalue
      exact ⟨(some value, some value), rfl, hbound, hbound, fun k => (Value.eq_int_eq hvalue k).symm⟩
  | neq => exact ⟨bounds, rfl, hlower, hupper, fun k => by simp [ComparisonOp.covers]⟩
  | gt =>
      obtain ⟨lower, hadd, hnumber⟩ := Value.addOne_isNumber hvalue
      obtain ⟨start, hstart, hbound, habove⟩ := maxBound_spec hlower hnumber
      refine ⟨(some start, bounds.2), ?_, Value.isBound_some.mpr hbound, hupper, fun k => ?_⟩
      · simp [tightenBounds, hadd, hstart, bind, Except.bind, pure, Except.pure]
      · simp only [habove, ComparisonOp.covers, hadd, reduceCtorEq, decide_false, Bool.false_or]
        exact Bool.and_right_comm _ _ _
  | gte =>
      obtain ⟨start, hstart, hbound, habove⟩ := maxBound_spec hlower hvalue
      refine ⟨(some start, bounds.2), ?_, Value.isBound_some.mpr hbound, hupper, fun k => ?_⟩
      · simp [tightenBounds, hstart, bind, Except.bind, pure, Except.pure]
      · simp only [habove, ComparisonOp.covers, reduceCtorEq, decide_false, Bool.false_or]
        exact Bool.and_right_comm _ _ _
  | lt =>
      obtain ⟨upper, hsub, hnumber⟩ := Value.subOne_isNumber hvalue
      obtain ⟨stop, hstop, hbound, hbelow⟩ := minBound_spec hupper hnumber
      refine ⟨(bounds.1, some stop), ?_, hlower, Value.isBound_some.mpr hbound, fun k => ?_⟩
      · simp [tightenBounds, hsub, hstop, bind, Except.bind, pure, Except.pure]
      · simp only [hbelow, ComparisonOp.covers, hsub, reduceCtorEq, decide_false, Bool.false_or]
        exact (Bool.and_assoc _ _ _).symm
  | lte =>
      obtain ⟨stop, hstop, hbound, hbelow⟩ := minBound_spec hupper hvalue
      refine ⟨(bounds.1, some stop), ?_, hlower, Value.isBound_some.mpr hbound, fun k => ?_⟩
      · simp [tightenBounds, hstop, bind, Except.bind, pure, Except.pure]
      · simp only [hbelow, ComparisonOp.covers, reduceCtorEq, decide_false, Bool.false_or]
        exact (Bool.and_assoc _ _ _).symm

/-- Every comparison but `<>` gives a bound, and a bound stays. -/
theorem tightenBounds_ne_none {op : ComparisonOp} {value : Value}
    {bounds tight : Option Value × Option Value} (h : tightenBounds op value bounds = .ok tight)
    (hop : op ≠ .neq ∨ bounds ≠ (none, none)) : tight ≠ (none, none) := by
  cases op with
  | eq =>
      obtain rfl := Except.ok.inj h
      simp
  | neq =>
      obtain rfl := Except.ok.inj h
      exact hop.resolve_left fun hne => hne rfl
  | gt =>
      obtain ⟨lower, -, h⟩ := bind_eq_ok.mp h
      obtain ⟨start, -, h⟩ := bind_eq_ok.mp h
      obtain rfl := Except.ok.inj h
      simp
  | gte =>
      obtain ⟨start, -, h⟩ := bind_eq_ok.mp h
      obtain rfl := Except.ok.inj h
      simp
  | lt =>
      obtain ⟨upper, -, h⟩ := bind_eq_ok.mp h
      obtain ⟨stop, -, h⟩ := bind_eq_ok.mp h
      obtain rfl := Except.ok.inj h
      simp
  | lte =>
      obtain ⟨stop, -, h⟩ := bind_eq_ok.mp h
      obtain rfl := Except.ok.inj h
      simp

end PhysicalPlanner

/-! ## What is read off the conjuncts -/

namespace Expr

/-- A comparison of a column with a literal as the planner reads it: the bare name of
the column, the operator and the literal, whatever the order of the sides. -/
def reading : Expr String → Option (String × ComparisonOp × Value)
  | comparison left op right =>
      (PhysicalPlanner.asColAndLiteral left right).map fun item => (lastPart item.1, op, item.2)
  | _ => none

/-- A conjunct is read as a comparison on a column. -/
def readsColumn (column : String) (c : Expr String) : Bool :=
  match c.reading with
  | some (name, _) => name = column
  | none => false

/-- A conjunct is read as an equality. -/
def readsEq (c : Expr String) : Bool :=
  match c.reading with
  | some (_, op, _) => op = .eq
  | none => false

/-- A key satisfies a conjunct as the planner reads it off. -/
def covers (k : Int) (c : Expr String) : Bool :=
  match c.reading with
  | some (_, op, value) => op.covers value k
  | none => true

/-- What follows the last equality, and the equality. -/
def sinceEq : List (Expr String) → List (Expr String)
  | [] => []
  | c :: rest => if rest.any readsEq then sinceEq rest else c :: rest

/-- The conjuncts that decide the range on a column. -/
def counted (column : String) (conjuncts : List (Expr String)) : List (Expr String) :=
  sinceEq (conjuncts.filter (readsColumn column))

theorem sinceEq_eq_self {conjuncts : List (Expr String)} (h : ¬ conjuncts.any readsEq = true) :
    sinceEq conjuncts = conjuncts := by
  cases conjuncts with
  | nil => rfl
  | cons c rest =>
      rw [List.any_cons, Bool.or_eq_true, not_or] at h
      rw [sinceEq, if_neg h.2]

theorem mem_of_mem_sinceEq {c : Expr String} : ∀ {conjuncts : List (Expr String)},
    c ∈ sinceEq conjuncts → c ∈ conjuncts
  | [], h => h
  | d :: rest, h => by
      rw [sinceEq] at h
      split at h
      · exact List.mem_cons_of_mem d (mem_of_mem_sinceEq h)
      · exact h

theorem mem_of_mem_counted {column : String} {conjuncts : List (Expr String)} {c : Expr String}
    (h : c ∈ counted column conjuncts) : c ∈ conjuncts ∧ c.readsColumn column = true :=
  List.mem_filter.mp (mem_of_mem_sinceEq h)

end Expr

namespace PhysicalPlanner

variable {τ : Type}

/-- The column whose index is used: the first indexed one that is compared. -/
def indexColumn (indices : Dict String (IndexMeta τ)) : List (Expr String) → Option String
  | [] => none
  | c :: rest =>
      match c.reading with
      | some (name, _) => if indices.has name then some name else indexColumn indices rest
      | none => indexColumn indices rest

/-- The bounds after the conjuncts read off. -/
def tightenAll : List (Expr String) → Option Value × Option Value →
    Except PyErr (Option Value × Option Value)
  | [], bounds => pure bounds
  | c :: rest, bounds =>
      match c.reading with
      | some (_, op, value) => do
          let bounds ← tightenBounds op value bounds
          tightenAll rest bounds
      | none => tightenAll rest bounds

/-- The loop of `_find_index_lookup`, one conjunct at a time. -/
theorem chooseIndex_cons (indices : Dict String (IndexMeta τ)) (c : Expr String)
    (rest : List (Expr String)) (choice : Option IndexChoice) :
    chooseIndex indices (c :: rest) choice =
      match c.reading with
      | none => chooseIndex indices rest choice
      | some (name, op, value) =>
          if indices.has name then
            match choice with
            | none => tightenBounds op value (none, none) >>= fun bounds =>
                chooseIndex indices rest (some ⟨name, bounds⟩)
            | some found =>
                if name = found.indexCol then tightenBounds op value found.bounds >>= fun bounds =>
                  chooseIndex indices rest (some ⟨name, bounds⟩)
                else chooseIndex indices rest choice
          else chooseIndex indices rest choice := by
  cases c with
  | comparison left op right =>
      rw [chooseIndex, Expr.reading]
      cases asColAndLiteral left right <;> rfl
  | columnRef name => rfl
  | literal value => rfl
  | and left right => rfl
  | or left right => rfl

/-- With the column found, the loop tightens its bounds. -/
theorem chooseIndex_some {indices : Dict String (IndexMeta τ)} {column : String}
    (hcolumn : indices.has column = true) (conjuncts : List (Expr String)) :
    ∀ bounds, chooseIndex indices conjuncts (some ⟨column, bounds⟩) =
      (tightenAll (conjuncts.filter (Expr.readsColumn column)) bounds).map fun bounds =>
        some ⟨column, bounds⟩ := by
  induction conjuncts with
  | nil =>
      intro bounds
      rfl
  | cons c rest ih =>
      intro bounds
      rw [chooseIndex_cons, List.filter_cons]
      cases hreading : c.reading with
      | none =>
          have hreads : c.readsColumn column = false := by simp only [Expr.readsColumn, hreading]
          simp only [hreads, Bool.false_eq_true, if_false, ih]
      | some item =>
          obtain ⟨name, op, value⟩ := item
          have hreads : c.readsColumn column = decide (name = column) := by
            simp only [Expr.readsColumn, hreading]
          by_cases hname : name = column
          · subst hname
            simp only [hreads, decide_true, if_true, hcolumn, tightenAll, hreading]
            cases tightenBounds op value bounds with
            | error e => rfl
            | ok tight => exact ih tight
          · simp only [hreads, hname, decide_false, Bool.false_eq_true, if_false, ite_self, ih]

theorem has_indexColumn {indices : Dict String (IndexMeta τ)} {column : String} :
    ∀ {conjuncts : List (Expr String)}, indexColumn indices conjuncts = some column →
      indices.has column = true
  | [], h => by simp [indexColumn] at h
  | c :: rest, h => by
      rw [indexColumn] at h
      split at h
      · rename_i name op value hreading
        split at h
        · rename_i hname
          exact Option.some.inj h ▸ hname
        · exact has_indexColumn h
      · exact has_indexColumn h

theorem exists_reads_indexColumn {indices : Dict String (IndexMeta τ)} {column : String} :
    ∀ {conjuncts : List (Expr String)}, indexColumn indices conjuncts = some column →
      ∃ c ∈ conjuncts, c.readsColumn column = true
  | [], h => by simp [indexColumn] at h
  | c :: rest, h => by
      rw [indexColumn] at h
      split at h
      · rename_i name op value hreading
        split at h
        · refine ⟨c, List.mem_cons_self, ?_⟩
          simp only [Expr.readsColumn, hreading]
          exact decide_eq_true (Option.some.inj h)
        · obtain ⟨d, hd, hreads⟩ := exists_reads_indexColumn h
          exact ⟨d, List.mem_cons_of_mem c hd, hreads⟩
      · obtain ⟨d, hd, hreads⟩ := exists_reads_indexColumn h
        exact ⟨d, List.mem_cons_of_mem c hd, hreads⟩

/-- The loop takes the first indexed column that is compared, and tightens its bounds
with every conjunct on it. -/
theorem chooseIndex_none (indices : Dict String (IndexMeta τ)) (conjuncts : List (Expr String)) :
    chooseIndex indices conjuncts none =
      match indexColumn indices conjuncts with
      | none => .ok none
      | some column => (tightenAll (conjuncts.filter (Expr.readsColumn column)) (none, none)).map
          fun bounds => some ⟨column, bounds⟩ := by
  induction conjuncts with
  | nil => rfl
  | cons c rest ih =>
      rw [chooseIndex_cons, indexColumn]
      cases hreading : c.reading with
      | none =>
          have hreads : ∀ column, c.readsColumn column = false := by
            intro column
            simp only [Expr.readsColumn, hreading]
          simp only [List.filter_cons, hreads, Bool.false_eq_true, if_false]
          exact ih
      | some item =>
          obtain ⟨name, op, value⟩ := item
          have hreads : ∀ column, c.readsColumn column = decide (name = column) := by
            intro column
            simp only [Expr.readsColumn, hreading]
          by_cases hname : indices.has name = true
          · simp only [hname, if_true, List.filter_cons, hreads, decide_true, tightenAll, hreading]
            cases tightenBounds op value (none, none) with
            | error e => rfl
            | ok tight => exact chooseIndex_some hname rest tight
          · simp only [hname]
            rw [ih]
            cases hcolumn : indexColumn indices rest with
            | none => rfl
            | some column =>
                have hne : name ≠ column := by
                  rintro rfl
                  exact hname (has_indexColumn hcolumn)
                simp only [List.filter_cons, hreads, hne, decide_false, Bool.false_eq_true, if_false]

/-- The bounds after a list of comparisons with numbers hold exactly the keys that
satisfy what follows the last equality. -/
theorem tightenAll_spec {conjuncts : List (Expr String)}
    (hnumbers : ∀ c ∈ conjuncts, ∃ name op value, c.reading = some (name, op, value) ∧ value.IsNumber) :
    ∀ bounds : Option Value × Option Value, Value.isBound bounds.1 = true →
      Value.isBound bounds.2 = true → ∃ tight, tightenAll conjuncts bounds = .ok tight ∧
        Value.isBound tight.1 = true ∧ Value.isBound tight.2 = true ∧
        ∀ k, inBounds tight k = ((conjuncts.any Expr.readsEq || inBounds bounds k) &&
          (Expr.sinceEq conjuncts).all (Expr.covers k)) := by
  induction conjuncts with
  | nil =>
      intro bounds hlower hupper
      exact ⟨bounds, rfl, hlower, hupper, fun k => by simp [Expr.sinceEq]⟩
  | cons c rest ih =>
      intro bounds hlower hupper
      obtain ⟨name, op, value, hreading, hvalue⟩ := hnumbers c List.mem_cons_self
      obtain ⟨next, hnext, hlower', hupper', hkeys⟩ := tightenBounds_spec hvalue hlower hupper
      obtain ⟨tight, htight, hlower'', hupper'', hkeys'⟩ :=
        ih (fun d hd => hnumbers d (List.mem_cons_of_mem c hd)) next hlower' hupper'
      have heq : c.readsEq = decide (op = .eq) := by simp only [Expr.readsEq, hreading]
      have hcovers : ∀ k, c.covers k = op.covers value k := by
        intro k
        simp only [Expr.covers, hreading]
      refine ⟨tight, ?_, hlower'', hupper'', fun k => ?_⟩
      · simp only [tightenAll, hreading]
        exact bind_eq_ok.mpr ⟨next, hnext, htight⟩
      · rw [hkeys', hkeys, ← hcovers, ← heq, List.any_cons, Expr.sinceEq]
        by_cases hlater : rest.any Expr.readsEq = true
        · simp only [hlater, Bool.or_true, Bool.true_or, if_true]
        · simp only [hlater, Bool.or_false, Bool.false_or, Bool.false_eq_true, if_false, List.all_cons]
          rw [Expr.sinceEq_eq_self hlater, Bool.and_assoc]

/-- A comparison other than `<>` leaves a bound. -/
theorem tightenAll_ne_none {conjuncts : List (Expr String)} : ∀ {bounds tight : Option Value × Option Value},
    tightenAll conjuncts bounds = .ok tight →
    (bounds ≠ (none, none) ∨ ∃ c ∈ conjuncts, ∃ name op value, c.reading = some (name, op, value) ∧
      op ≠ .neq) → tight ≠ (none, none) := by
  induction conjuncts with
  | nil =>
      intro bounds tight h hsome
      obtain rfl := Except.ok.inj h
      simpa using hsome
  | cons c rest ih =>
      intro bounds tight h hsome
      rw [tightenAll] at h
      cases hreading : c.reading with
      | none =>
          rw [hreading] at h
          refine ih h (hsome.imp_right ?_)
          rintro ⟨d, hd, name, op, value, hd', hop⟩
          rcases List.mem_cons.mp hd with rfl | hd
          · simp [hreading] at hd'
          · exact ⟨d, hd, name, op, value, hd', hop⟩
      | some item =>
          obtain ⟨name, op, value⟩ := item
          rw [hreading] at h
          obtain ⟨next, hnext, h⟩ := bind_eq_ok.mp h
          by_cases hfirst : op ≠ .neq ∨ bounds ≠ (none, none)
          · exact ih h (.inl (tightenBounds_ne_none hnext hfirst))
          · refine ih h (.inr ?_)
            rw [not_or, not_not, not_not] at hfirst
            obtain ⟨d, hd, name', op', value', hd', hop'⟩ := hsome.resolve_left (not_not.mpr hfirst.2)
            rcases List.mem_cons.mp hd with rfl | hd
            · rw [hreading] at hd'
              simp only [Option.some.injEq, Prod.mk.injEq] at hd'
              exact absurd (hd'.2.1 ▸ hfirst.1) hop'
            · exact ⟨d, hd, name', op', value', hd', hop'⟩

/-- The lookup that `_plan_scan` makes of the bounds. -/
def lookupOf (bounds : Option Value × Option Value) : Lookup :=
  if sameBound bounds.1 bounds.2 then .eq bounds.1 else .range bounds.1 bounds.2

/-- A point lookup and a range scan both visit the keys between the bounds. -/
theorem visits_lookupOf {bounds : Option Value × Option Value} (hlower : Value.isBound bounds.1 = true)
    (hupper : Value.isBound bounds.2 = true) (hsome : bounds ≠ (none, none)) (k : Int) :
    (lookupOf bounds).visits k = inBounds bounds k := by
  obtain ⟨start, stop⟩ := bounds
  unfold lookupOf
  split
  · rename_i hsame
    cases start with
    | none =>
        cases stop with
        | none => exact absurd rfl hsome
        | some b => simp [sameBound] at hsame
    | some a =>
        cases stop with
        | none => simp [sameBound] at hsame
        | some b =>
            have hsame : a.eq b = true := hsame
            obtain ⟨x, hx⟩ := Value.isBound_some.mp hlower
            obtain ⟨y, hy⟩ := Value.isBound_some.mp hupper
            simp only [Value.eq, hx, hy, decide_eq_true_eq] at hsame
            subst hsame
            change a.eq (.int k) = (Value.above (some a) k && Value.below (some b) k)
            rw [Value.eq_int_eq ⟨x, hx⟩, Value.below_eq hx, Value.below_eq hy]
  · rfl

/-- An index answers a lookup whose bounds are numbers. -/
theorem ask_lookupOf [IndexTree τ] [Multimap τ] {bounds : Option Value × Option Value}
    (hlower : Value.isBound bounds.1 = true) (hupper : Value.isBound bounds.2 = true)
    (hsome : bounds ≠ (none, none)) (tree : τ) : ∃ rids, (lookupOf bounds).ask tree = .ok rids := by
  obtain ⟨start, stop⟩ := bounds
  unfold lookupOf
  split
  · rename_i hsame
    cases start with
    | none =>
        cases stop with
        | none => exact absurd rfl hsome
        | some b => simp [sameBound] at hsame
    | some a =>
        obtain ⟨x, hx⟩ := Value.isBound_some.mp hlower
        exact Multimap.search_ok tree a (by simp [hx])
  · exact Multimap.rangeScan_ok tree start stop hlower hupper

/-! ## The rows of a planned scan -/

section PlannedScan

variable [IndexTree τ] {catalog : Catalog τ} {node : LogicalScan} {table : Table τ}
  {records : List Record}

omit [IndexTree τ] in
theorem planScan_eq (hcatalog : catalog.tables.get? node.tableName = some table) :
    planScan catalog node = findIndexLookup table node.predicate >>= fun found =>
      match found with
      | none => Operator.openSeqScan table node.predicate node.yieldRid
      | some (tree, bounds, residual) =>
          Operator.openIndexScan table tree (lookupOf bounds) residual node.yieldRid := by
  have htable : catalog.tableAt node.tableName = .ok table := by
    rw [Catalog.tableAt, hcatalog]
  rw [planScan, htable]
  change (findIndexLookup table node.predicate >>= _) = findIndexLookup table node.predicate >>= _
  cases findIndexLookup table node.predicate with
  | error e => rfl
  | ok found =>
      cases found with
      | none => rfl
      | some found =>
          obtain ⟨tree, ⟨start, stop⟩, residual⟩ := found
          rfl

/-- Without an index to use, a scan reads the whole table. -/
theorem answer_planScan_whole (hcatalog : catalog.tables.get? node.tableName = some table)
    (hrows : table.Holds records)
    (hchoice : ∀ p, node.predicate = some p → chooseIndex table.indices p.splitConjuncts none = .ok none) :
    answerOf (planScan catalog node) =
      scanAnswer table.scanSchema node.predicate node.yieldRid records := by
  have hfound : findIndexLookup table node.predicate = .ok none := by
    cases hp : node.predicate with
    | none => rfl
    | some p =>
        rw [findIndexLookup, hchoice p hp]
        rfl
  rw [planScan_eq hcatalog, hfound]
  exact answer_openSeqScan hrows node.predicate node.yieldRid

omit [IndexTree τ] in
theorem findIndexLookup_some {p : Expr String} {found : IndexChoice}
    (hchoice : chooseIndex table.indices p.splitConjuncts none = .ok (some found)) :
    ∃ index, (found.indexCol, index) ∈ table.indices ∧ findIndexLookup table (some p) =
      .ok (some (index.tree, found.bounds, Expr.combineConjuncts p.splitConjuncts)) := by
  have hhas : table.indices.has found.indexCol = true := by
    rw [chooseIndex_none] at hchoice
    cases hcolumn : indexColumn table.indices p.splitConjuncts with
    | none => simp [hcolumn] at hchoice
    | some column =>
        rw [hcolumn] at hchoice
        cases hbounds : tightenAll (p.splitConjuncts.filter (Expr.readsColumn column)) (none, none) with
        | error e => simp [hbounds, Except.map] at hchoice
        | ok bounds =>
            simp only [hbounds, Except.map, Except.ok.injEq, Option.some.injEq] at hchoice
            rw [← hchoice]
            exact has_indexColumn hcolumn
  obtain ⟨index, hindex⟩ := Dict.has_iff.mp hhas
  refine ⟨index, Dict.mem_of_get? hindex, ?_⟩
  rw [findIndexLookup, hchoice]
  simp only [bind, Except.bind, hindex]
  rfl

/-- With an index that answers, a scan reads the rows whose key the lookup visits. -/
theorem answer_planScan_visits [Multimap τ] {p : Expr String} (hp : node.predicate = some p)
    (hcatalog : catalog.tables.get? node.tableName = some table) (hrows : table.Holds records)
    (hindexed : table.Indexed records) {found : IndexChoice}
    (hchoice : chooseIndex table.indices p.splitConjuncts none = .ok (some found)) {i : Nat}
    (hi : table.schema.columnNames.get? found.indexCol = some i)
    (hask : ∀ tree : τ, ∃ rids, (lookupOf found.bounds).ask tree = .ok rids) :
    answerOf (planScan catalog node) = scanAnswer table.scanSchema node.predicate node.yieldRid
      ((records : Multiset Record).filter fun r =>
        (lookupOf found.bounds).visits (r.intAt i) = true) := by
  obtain ⟨index, hindex, hfound⟩ := findIndexLookup_some hchoice
  obtain ⟨rids, hrids⟩ := hask index.tree
  rw [planScan_eq hcatalog, hp, hfound]
  change answerOf (Operator.openIndexScan table index.tree (lookupOf found.bounds)
    (Expr.combineConjuncts p.splitConjuncts) node.yieldRid) = _
  rw [answer_openIndexScan hrows hindexed hindex hi hrids, scanAnswer_combine]

/-- The key of a row passes a test for every conjunct that decides the range, when there
is an index to use. -/
def passesCounted (test : Int → Expr String → Bool) (table : Table τ) (conjuncts : List (Expr String))
    (record : Record) : Bool :=
  match indexColumn table.indices conjuncts with
  | none => true
  | some column =>
      match table.schema.columnNames.get? column with
      | some i => (Expr.counted column conjuncts).all (test (record.intAt i))
      | none => true

/-- A row that a planned scan reads. -/
def visited (table : Table τ) (conjuncts : List (Expr String)) (record : Record) : Bool :=
  passesCounted Expr.covers table conjuncts record

/-- The comparisons with an indexed column are with numbers, and none is `<>`. -/
def ReadsNumbers (table : Table τ) (conjuncts : List (Expr String)) : Prop :=
  ∀ c ∈ conjuncts, ∀ name op value, c.reading = some (name, op, value) →
    table.indices.has name = true → value.IsNumber ∧ op ≠ .neq

/-- When the literals are numbers, a planned scan yields what a scan yields of the rows
that satisfy the conjuncts counted. -/
theorem answer_planScan [Multimap τ] {p : Expr String} (hp : node.predicate = some p)
    (hcatalog : catalog.tables.get? node.tableName = some table) (hrows : table.Holds records)
    (hindexed : table.Indexed records) (hnumbers : ReadsNumbers table p.splitConjuncts) :
    answerOf (planScan catalog node) = scanAnswer table.scanSchema node.predicate node.yieldRid
      ((records : Multiset Record).filter fun r => visited table p.splitConjuncts r = true) := by
  have hchoice := chooseIndex_none table.indices p.splitConjuncts
  cases hcolumn : indexColumn table.indices p.splitConjuncts with
  | none =>
      rw [hcolumn] at hchoice
      rw [answer_planScan_whole hcatalog hrows fun q hq => by
        obtain rfl := Option.some.inj (hp.symm.trans hq)
        exact hchoice]
      simp only [visited, passesCounted, hcolumn, Multiset.filter_true]
  | some column =>
      rw [hcolumn] at hchoice
      have hhas := has_indexColumn hcolumn
      have hreads : ∀ c ∈ p.splitConjuncts.filter (Expr.readsColumn column), ∃ name op value,
          c.reading = some (name, op, value) ∧ value.IsNumber ∧ op ≠ .neq := by
        intro c hc
        obtain ⟨hmem, hreads⟩ := List.mem_filter.mp hc
        unfold Expr.readsColumn at hreads
        split at hreads
        · rename_i name item hreading
          rw [decide_eq_true_iff] at hreads
          exact ⟨name, item.1, item.2, hreading, hnumbers c hmem _ _ _ hreading (hreads ▸ hhas)⟩
        · simp at hreads
      obtain ⟨bounds, hbounds, hlower, hupper, hkeys⟩ := tightenAll_spec
        (fun c hc => (hreads c hc).imp fun _ h => h.imp fun _ h => h.imp fun _ h => ⟨h.1, h.2.1⟩)
        (none, none) rfl rfl
      have hsome : bounds ≠ (none, none) := by
        obtain ⟨c, hc, hreads'⟩ := exists_reads_indexColumn hcolumn
        have hmem := List.mem_filter.mpr ⟨hc, hreads'⟩
        obtain ⟨name, op, value, hreading, -, hop⟩ := hreads c hmem
        exact tightenAll_ne_none hbounds (.inr ⟨c, hmem, name, op, value, hreading, hop⟩)
      have hfound : chooseIndex table.indices p.splitConjuncts none = .ok (some ⟨column, bounds⟩) := by
        simp only [hchoice, hbounds]
        rfl
      obtain ⟨index, hindex⟩ := Dict.has_iff.mp hhas
      obtain ⟨i, -, hi, -, -⟩ := hindexed.column _ (Dict.mem_of_get? hindex)
      rw [answer_planScan_visits hp hcatalog hrows hindexed hfound hi
        (ask_lookupOf hlower hupper hsome)]
      refine congrArg (scanAnswer _ _ _) (Multiset.filter_congr fun r _ => ?_)
      rw [visits_lookupOf hlower hupper hsome, hkeys]
      simp only [visited, passesCounted, hcolumn, hi, inBounds, Value.above, Value.below, Bool.and_self,
        Bool.or_true, Bool.true_and]
      rfl

end PlannedScan

end PhysicalPlanner

end DBEngine
