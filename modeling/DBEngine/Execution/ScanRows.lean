import DBEngine.Lib.Selection
import DBEngine.Catalog.TableRows
import DBEngine.Execution.Denotation

/-!
# The rows of a scan

What the two scans yield over a table whose rows are known: the rows visited
for which the predicate is true, when it evaluates on all of them.
-/

set_option autoImplicit false

namespace DBEngine

/-! ## Predicates -/

namespace Expr

/-- An expression can be bound to a schema. -/
def binds (schema : Schema) (e : Expr String) : Bool :=
  match e.bind schema with
  | .ok _ => true
  | .error _ => false

/-- An expression evaluates on a row. -/
def definedOn (schema : Schema) (row : List Value) (e : Expr String) : Bool :=
  (e.valueIn schema row).isSome

theorem binds_and (schema : Schema) (left right : Expr String) :
    (left.and right).binds schema = (left.binds schema && right.binds schema) := by
  unfold binds
  rw [bind]
  cases left.bind schema with
  | error e => rfl
  | ok l => cases right.bind schema <;> rfl

theorem definedOn_and (schema : Schema) (row : List Value) (left right : Expr String) :
    (left.and right).definedOn schema row = (left.definedOn schema row && right.definedOn schema row) := by
  unfold definedOn
  rw [valueIn]
  cases left.valueIn schema row with
  | none => rfl
  | some l => cases right.valueIn schema row <;> rfl

/-- A predicate that is true of a row evaluates on it. -/
theorem definedOn_of_trueOn {schema : Schema} {row : List Value} {e : Expr String}
    (h : e.TrueOn schema row = true) : e.definedOn schema row = true := by
  rw [trueOn_eq] at h
  unfold definedOn
  cases hvalue : e.valueIn schema row with
  | none => simp [hvalue] at h
  | some v => rfl

/-- The bound predicate decides about a row as the predicate does. -/
theorem toOption_accepts {schema : Schema} {predicate : Option (Expr String)}
    {bound : Option (Expr Nat)} (h : Operator.bindPredicate schema predicate = .ok bound)
    (row : List Value) : (accepts bound row).toOption =
      if predicate.all fun e => e.definedOn schema row then some (trueOn? schema row predicate) else none := by
  cases predicate with
  | none =>
      obtain rfl := Except.ok.inj h
      rfl
  | some e =>
      obtain ⟨e', he', h⟩ := bind_eq_ok.mp h
      obtain rfl := Except.ok.inj h
      have hvalue := valueIn_eq schema row e
      rw [he'] at hvalue
      change e.valueIn schema row = (e'.evaluate row).toOption at hvalue
      rw [Option.all_some, definedOn, trueOn?, trueOn_eq, hvalue]
      unfold accepts
      cases heval : e'.evaluate row with
      | error x => simp [heval, Except.toOption]
      | ok v => simp [heval, Except.toOption]

theorem bindPredicate_isOk {schema : Schema} {predicate : Option (Expr String)} :
    (∃ bound, Operator.bindPredicate schema predicate = .ok bound) ↔
      predicate.all (fun e => e.binds schema) = true := by
  cases predicate with
  | none => exact ⟨fun _ => rfl, fun _ => ⟨none, rfl⟩⟩
  | some e =>
      rw [Option.all_some, binds]
      cases he : e.bind schema with
      | error x => simp [Operator.bindPredicate, he]
      | ok e' => exact ⟨fun _ => rfl, fun _ => ⟨some e', by rw [Operator.bindPredicate, he]; rfl⟩⟩

end Expr

/-! ## Loops over rows -/

/-- A result as a multiset of rows; none when the generator raises. -/
def Generator.answer (g : Generator PyErr (List Value)) : Option (Multiset (List Value)) :=
  g.collect.toOption.map Multiset.ofList

/-- What the loop of a scan yields when it visits the given rows. -/
def emitAnswer (schema : Schema) (predicate : Option (Expr String)) (yieldRid : Bool)
    (records : Multiset Record) : Option (Multiset (List Value)) :=
  if ∀ r ∈ records, predicate.all (fun e => e.definedOn schema r.values) = true then
    some ((records.filter fun r => Expr.trueOn? schema r.values predicate = true).map
      fun r => r.item yieldRid)
  else none

/-- What a scan yields when it visits the given rows; none when its predicate cannot be
bound or raises on one of them. -/
def scanAnswer (schema : Schema) (predicate : Option (Expr String)) (yieldRid : Bool)
    (records : Multiset Record) : Option (Multiset (List Value)) :=
  if predicate.all (fun e => e.binds schema) = true then emitAnswer schema predicate yieldRid records
  else none

/-- Predicates that are bound, evaluate and are true alike give one answer. -/
theorem scanAnswer_congr {schema : Schema} {p q : Option (Expr String)}
    (hbinds : p.all (fun e => e.binds schema) = q.all fun e => e.binds schema)
    (hdefined : ∀ row, p.all (fun e => e.definedOn schema row) = q.all fun e => e.definedOn schema row)
    (htrue : ∀ row, Expr.trueOn? schema row p = Expr.trueOn? schema row q) (yieldRid : Bool)
    (records : Multiset Record) :
    scanAnswer schema p yieldRid records = scanAnswer schema q yieldRid records := by
  unfold scanAnswer emitAnswer
  simp only [hbinds, hdefined, htrue]

/-- Splitting a predicate and combining its conjuncts again changes nothing. -/
theorem scanAnswer_combine (schema : Schema) (e : Expr String) (yieldRid : Bool)
    (records : Multiset Record) :
    scanAnswer schema (Expr.combineConjuncts e.splitConjuncts) yieldRid records =
      scanAnswer schema (some e) yieldRid records := by
  refine scanAnswer_congr ?_ (fun row => ?_) (fun row => ?_) yieldRid records
  · rw [Expr.combineConjuncts_eq_all (Expr.binds_and schema),
      ← Expr.eq_all_splitConjuncts (Expr.binds_and schema)]
    rfl
  · rw [Expr.combineConjuncts_eq_all (Expr.definedOn_and schema row),
      ← Expr.eq_all_splitConjuncts (Expr.definedOn_and schema row)]
    rfl
  · rw [Expr.trueOn_combineConjuncts, ← Expr.trueOn_splitConjuncts]
    rfl

/-- What the body of the loop yields for one row. -/
theorem toOption_emit {schema : Schema} {predicate : Option (Expr String)} {bound : Option (Expr Nat)}
    (h : Operator.bindPredicate schema predicate = .ok bound) (yieldRid : Bool) (record : Record) :
    (record.emit bound yieldRid).collect.toOption =
      if predicate.all (fun e => e.definedOn schema record.values) = true then
        some (if Expr.trueOn? schema record.values predicate = true then [record.item yieldRid] else [])
      else none := by
  have haccepts := Expr.toOption_accepts h record.values
  unfold Record.emit
  cases hvalue : Expr.accepts bound record.values with
  | error e =>
      rw [hvalue] at haccepts
      split at haccepts
      · simp [Except.toOption] at haccepts
      · rename_i hdefined
        rw [if_neg hdefined]
        rfl
  | ok b =>
      rw [hvalue] at haccepts
      split at haccepts
      · rename_i hdefined
        obtain rfl := Option.some.inj haccepts
        rw [if_pos hdefined, Generator.after_ok]
        split <;> rfl
      · simp [Except.toOption] at haccepts

/-- The loop of a scan over rows that it has read. -/
theorem answer_emit {schema : Schema} {predicate : Option (Expr String)} {bound : Option (Expr Nat)}
    (h : Operator.bindPredicate schema predicate = .ok bound) (yieldRid : Bool) (records : List Record) :
    Generator.answer ((Generator.ofList records).forEach (Record.emit bound yieldRid)) =
      emitAnswer schema predicate yieldRid records := by
  unfold Generator.answer
  induction records with
  | nil => rfl
  | cons record records ih =>
      rw [Generator.ofList, Generator.forEach, Generator.toOption_collect_append, toOption_emit h]
      have hcons : ∀ {p : Record → Prop}, (∀ r ∈ ((record :: records : List Record) : Multiset Record), p r) ↔
          p record ∧ ∀ r ∈ (records : Multiset Record), p r := by
        intro p
        simp
      generalize hrest : ((Generator.ofList records).forEach (Record.emit bound yieldRid)).collect = rest at ih ⊢
      unfold emitAnswer at ih ⊢
      by_cases hdefined : predicate.all (fun e => e.definedOn schema record.values) = true
      · rw [if_pos hdefined, Option.bind_some, Option.map_map]
        by_cases hrests : ∀ r ∈ (records : Multiset Record),
            predicate.all (fun e => e.definedOn schema r.values) = true
        · rw [if_pos hrests] at ih
          rw [if_pos (hcons.mpr ⟨hdefined, hrests⟩)]
          obtain ⟨rows, hrows, hcoe⟩ := Option.map_eq_some_iff.mp ih
          rw [hrows, Option.map_some, ← Multiset.cons_coe, Multiset.filter_cons, Multiset.map_add, ← hcoe]
          split <;> rfl
        · rw [if_neg hrests] at ih
          rw [if_neg (fun hall => hrests (hcons.mp hall).2), Option.map_eq_none_iff.mp ih]
          rfl
      · rw [if_neg hdefined, if_neg (fun hall => hdefined (hcons.mp hall).1)]
        rfl

/-! ## The scans of a table -/

variable {τ : Type} [IndexTree τ]

/-- What an operator yields, when it was opened and does not raise. -/
def answerOf (opened : Except PyErr (Operator τ)) : Option (Multiset (List Value)) :=
  opened.toOption.bind fun operator => Generator.answer operator.next

/-- The record ids that an index scan asks for. -/
def Lookup.ask (lookup : Lookup) (tree : τ) : Except PyErr (List Rid) :=
  match lookup with
  | .eq key => IndexTree.search tree key
  | .range start stop => IndexTree.rangeScan tree start stop

/-- The keys that an index scan visits. -/
def Lookup.visits (lookup : Lookup) (k : Int) : Bool :=
  match lookup with
  | .eq key => Value.matches key k
  | .range start stop => Value.above start k && Value.below stop k

theorem Lookup.ask_exact [Multimap τ] {lookup : Lookup} {tree : τ} {rids : List Rid}
    (h : lookup.ask tree = .ok rids) : (rids : Multiset Rid) =
      ((Multimap.entries tree).filter fun e => lookup.visits e.1 = true).map Prod.snd := by
  cases lookup with
  | eq key => exact Multimap.search_exact tree key rids h
  | range start stop => exact Multimap.rangeScan_exact tree start stop rids h

variable {table : Table τ} {records : List Record}

theorem answer_openSeqScan (hrows : table.Holds records) (predicate : Option (Expr String))
    (yieldRid : Bool) : answerOf (Operator.openSeqScan table predicate yieldRid) =
      scanAnswer table.scanSchema predicate yieldRid records := by
  unfold scanAnswer
  split
  · rename_i hbinds
    obtain ⟨bound, hbound⟩ := Expr.bindPredicate_isOk.mpr hbinds
    have hopen : Operator.openSeqScan table predicate yieldRid =
        .ok (.seqScan table table.scanSchema bound yieldRid) := by
      rw [Operator.openSeqScan, hbound]
      rfl
    rw [hopen]
    change Generator.answer (table.scan.forEach (Record.emit bound yieldRid)) = _
    rw [Generator.eq_ofList hrows.scan, answer_emit hbound]
  · rename_i hbinds
    cases hopen : Operator.openSeqScan table predicate yieldRid with
    | error e => rfl
    | ok operator =>
        obtain ⟨bound, hbound, -⟩ := bind_eq_ok.mp hopen
        exact absurd (Expr.bindPredicate_isOk.mp ⟨bound, hbound⟩) hbinds

/-- The rows behind the record ids of an index. -/
theorem exists_visited [Multimap τ] {tree : τ} {i : Nat} (hindex : IndexesColumn tree records i)
    {lookup : Lookup} {rids : List Rid} (h : lookup.ask tree = .ok rids) :
    ∃ visited : List Record, visited.map Record.rid = rids ∧ (visited : Multiset Record) =
      (records : Multiset Record).filter fun r => lookup.visits (r.intAt i) = true := by
  apply Selection.exists_map_eq
  rw [Lookup.ask_exact h, hindex.entries, Multiset.filter_map, Multiset.map_map]
  rfl

omit [IndexTree τ] in
theorem forEach_get (hrows : table.Holds records) {visited : List Record}
    (hvisited : ∀ r ∈ visited, r ∈ records) (body : Record → Generator PyErr (List Value)) :
    ((Generator.ofList (visited.map Record.rid)).forEach fun rid => .after (table.get rid) body) =
      (Generator.ofList visited).forEach body := by
  induction visited with
  | nil => rfl
  | cons record visited ih =>
      rw [List.map_cons, Generator.ofList, Generator.ofList, Generator.forEach, Generator.forEach,
        ih fun r hr => hvisited r (List.mem_cons_of_mem _ hr),
        hrows.get_rid (hvisited record List.mem_cons_self), Generator.after_ok]

/-- An index scan yields what a scan of the rows visited yields. -/
theorem answer_openIndexScan [Multimap τ] (hrows : table.Holds records)
    (hindexed : table.Indexed records) {item : String × IndexMeta τ} (hitem : item ∈ table.indices)
    {i : Nat} (hi : table.schema.columnNames.get? item.1 = some i) {lookup : Lookup} {rids : List Rid}
    (h : lookup.ask item.2.tree = .ok rids) (predicate : Option (Expr String)) (yieldRid : Bool) :
    answerOf (Operator.openIndexScan table item.2.tree lookup predicate yieldRid) =
      scanAnswer table.scanSchema predicate yieldRid
        ((records : Multiset Record).filter fun r => lookup.visits (r.intAt i) = true) := by
  unfold scanAnswer
  obtain ⟨visited, rfl, hvisited⟩ := exists_visited (hrows.indexesColumn hindexed hitem hi) h
  have hmem : ∀ r ∈ visited, r ∈ records := by
    intro r hr
    have hr : r ∈ (visited : Multiset Record) := hr
    rw [hvisited] at hr
    exact (Multiset.mem_filter.mp hr).1
  split
  · rename_i hbinds
    obtain ⟨bound, hbound⟩ := Expr.bindPredicate_isOk.mpr hbinds
    have hopen : Operator.openIndexScan table item.2.tree lookup predicate yieldRid =
        .ok (.indexScan table item.2.tree lookup table.scanSchema bound yieldRid) := by
      rw [Operator.openIndexScan, hbound]
      rfl
    rw [hopen, ← hvisited]
    change Generator.answer (.after (lookup.ask item.2.tree) fun rids =>
      (Generator.ofList rids).forEach fun rid =>
        .after (table.get rid) (Record.emit bound yieldRid)) = _
    rw [h, Generator.after_ok, forEach_get hrows hmem, answer_emit hbound]
  · rename_i hbinds
    cases hopen : Operator.openIndexScan table item.2.tree lookup predicate yieldRid with
    | error e => rfl
    | ok operator =>
        obtain ⟨bound, hbound, -⟩ := bind_eq_ok.mp hopen
        exact absurd (Expr.bindPredicate_isOk.mp ⟨bound, hbound⟩) hbinds

/-- An index scan whose index raises yields nothing. -/
theorem answer_openIndexScan_error {tree : τ} {lookup : Lookup} {e : PyErr}
    (h : lookup.ask tree = .error e) (predicate : Option (Expr String)) (yieldRid : Bool) :
    answerOf (Operator.openIndexScan table tree lookup predicate yieldRid) = none := by
  cases hopen : Operator.openIndexScan table tree lookup predicate yieldRid with
  | error e => rfl
  | ok operator =>
      obtain ⟨bound, -, hopen⟩ := bind_eq_ok.mp hopen
      obtain rfl := Except.ok.inj hopen
      change Generator.answer (.after (lookup.ask tree) fun rids =>
        (Generator.ofList rids).forEach fun rid =>
          .after (table.get rid) (Record.emit bound yieldRid)) = none
      rw [h]
      rfl

/-! ## Filters -/

/-- The loop of a filter is that of a scan of rows at one place. -/
theorem forEach_accepts (bound : Expr Nat) (rows : List (List Value)) :
    ((Generator.ofList rows).forEach fun values => .after (Expr.accepts (some bound) values) fun accepted =>
        if accepted then .yield values .done else .done) =
      (Generator.ofList (rows.map fun values => (⟨values, (0, 0)⟩ : Record))).forEach
        (Record.emit (some bound) false) := by
  induction rows with
  | nil => rfl
  | cons row rows ih =>
      rw [List.map_cons, Generator.ofList, Generator.ofList, Generator.forEach, Generator.forEach, ih]
      rfl

/-- What a filter lets through of the rows of its child. -/
theorem answer_openFilter {child : Operator τ} {schema : Schema}
    (hschema : child.outputSchema = schema) (e : Expr String) :
    answerOf (Operator.openFilter child e) =
      if e.binds schema = true then (Generator.answer child.next).bind fun rows =>
        if ∀ row ∈ rows, e.definedOn schema row = true then
          some (rows.filter fun row => e.TrueOn schema row = true)
        else none
      else none := by
  split
  · rename_i hbinds
    have hall : (some e).all (fun e => e.binds schema) = true := hbinds
    obtain ⟨bound, hbound⟩ := Expr.bindPredicate_isOk.mpr hall
    obtain ⟨e', he', hsome⟩ := bind_eq_ok.mp hbound
    obtain rfl := Except.ok.inj hsome
    have hopen : Operator.openFilter child e = .ok (.filter child e') := by
      rw [Operator.openFilter, hschema, he']
      rfl
    rw [hopen]
    change Generator.answer (child.next.forEach _) = _
    cases hcollect : child.next.collect with
    | error x =>
        have hchild : Generator.answer child.next = none := by
          rw [Generator.answer, hcollect]
          rfl
        rw [hchild, Generator.answer]
        cases hloop : (child.next.forEach fun values => .after (Expr.accepts (some e') values)
            fun accepted => if accepted then .yield values .done else .done).collect with
        | error y => rfl
        | ok rows =>
            obtain ⟨_, hok, -⟩ := Generator.collect_forEach_eq_ok hloop
            simp [hcollect] at hok
    | ok rows =>
        have hchild : Generator.answer child.next = some (rows : Multiset (List Value)) := by
          rw [Generator.answer, hcollect]
          rfl
        rw [hchild, Generator.eq_ofList hcollect, forEach_accepts, answer_emit hbound, emitAnswer,
          Option.bind_some]
        have hdefined : (∀ r ∈ ((rows.map fun values => (⟨values, (0, 0)⟩ : Record) : List Record) : Multiset Record),
            (some e).all (fun e => e.definedOn schema r.values) = true) ↔
            ∀ row ∈ (rows : Multiset (List Value)), e.definedOn schema row = true := by
          simp
        by_cases hall : ∀ row ∈ (rows : Multiset (List Value)), e.definedOn schema row = true
        · rw [if_pos hall, if_pos (hdefined.mpr hall), ← Multiset.map_coe, Multiset.filter_map,
            Multiset.map_map]
          exact congrArg some (Multiset.map_id' _)
        · rw [if_neg hall, if_neg (mt hdefined.mp hall)]
  · rename_i hbinds
    cases hopen : Operator.openFilter child e with
    | error x => rfl
    | ok operator =>
        obtain ⟨e', he', -⟩ := bind_eq_ok.mp hopen
        rw [hschema] at he'
        exact absurd (by rw [Expr.binds, he']) hbinds

end DBEngine
