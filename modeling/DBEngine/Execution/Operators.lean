import DBEngine.Catalog.Table
import DBEngine.Execution.Logical

/-!
# Operators

The physical operators after `open`, their output schemas and the rows that
`next` yields.  A record id that a scan yields in place of a row is a pair of
integers.
-/

set_option autoImplicit false

namespace DBEngine

/-- A dictionary from join keys to the rows that have them; keys are equal as
Python compares them. -/
abbrev HashTable : Type := List (Value × List (List Value))

/-- `self.hash_table[key]`, or none when the key is not in it. -/
def HashTable.get? (table : HashTable) (key : Value) : Option (List (List Value)) :=
  (table.find? fun item => item.1.eq key).map Prod.snd

/-- The body of the loop that builds the hash table. -/
def HashTable.add : HashTable → Value → List Value → HashTable
  | [], key, record => [(key, [record])]
  | item :: rest, key, record =>
      if item.1.eq key then (item.1, item.2 ++ [record]) :: rest
      else item :: HashTable.add rest key record

/-- How an `IndexScan` asks its index. -/
inductive Lookup where
  | eq (key : Option Value)
  | range (start stop : Option Value)

inductive Operator (τ : Type) where
  | seqScan (table : Table τ) (schema : Schema) (predicate : Option (Expr Nat)) (yieldRid : Bool)
  | indexScan (table : Table τ) (tree : τ) (lookup : Lookup) (schema : Schema)
      (predicate : Option (Expr Nat)) (yieldRid : Bool)
  | filter (child : Operator τ) (predicate : Expr Nat)
  | projection (child : Operator τ) (expressions : List (Expr Nat)) (schema : Schema)
  | indexJoin (index : τ) (left : Operator τ) (leftIndex : Nat) (right : Table τ)
      (leftSchema rightSchema : Schema)
  | hashJoin (hashTable : HashTable) (right : Operator τ) (rightIndex : Nat)
      (leftSchema rightSchema : Schema)

/-- The schema of a scan: the columns of the table under their qualified names. -/
def Table.scanSchema {τ : Type} (table : Table τ) : Schema :=
  ⟨table.schema.columns.map fun column => { column with name := qualified table.tableName column.name }⟩

/-- What a scan yields for a record. -/
def Record.item (record : Record) (yieldRid : Bool) : List Value :=
  if yieldRid then [.int record.rid.1, .int record.rid.2] else record.values

/-- The body of the loops of the two scans. -/
def Record.emit (predicate : Option (Expr Nat)) (yieldRid : Bool) (record : Record) :
    Generator PyErr (List Value) :=
  .after (Expr.accepts predicate record.values) fun accepted =>
    if accepted then .yield (record.item yieldRid) .done else .done

namespace Operator

variable {τ : Type}

/-- `output_schema`. -/
def outputSchema : Operator τ → Schema
  | seqScan _ schema _ _ => schema
  | indexScan _ _ _ schema _ _ => schema
  | filter child _ => child.outputSchema
  | projection _ _ schema => schema
  | indexJoin _ _ _ _ leftSchema rightSchema => ⟨leftSchema.columns ++ rightSchema.columns⟩
  | hashJoin _ _ _ leftSchema rightSchema => ⟨leftSchema.columns ++ rightSchema.columns⟩

/-- `next`. -/
def next [IndexTree τ] : Operator τ → Generator PyErr (List Value)
  | seqScan table _ predicate yieldRid => table.scan.forEach (Record.emit predicate yieldRid)
  | indexScan table tree lookup _ predicate yieldRid =>
      let rids := match lookup with
        | .eq key => IndexTree.search tree key
        | .range start stop => IndexTree.rangeScan tree start stop
      .after rids fun rids => (Generator.ofList rids).forEach fun rid =>
        .after (table.get rid) (Record.emit predicate yieldRid)
  | filter child predicate => child.next.forEach fun values =>
      .after (Expr.accepts (some predicate) values) fun accepted =>
        if accepted then .yield values .done else .done
  | projection child expressions _ => child.next.forEach fun values =>
      .after (expressions.mapM (Expr.evaluate values)) fun values => .yield values .done
  | indexJoin index left leftIndex right _ _ => left.next.forEach fun values =>
      .after (Schema.valueAt values leftIndex) fun key =>
        .after (IndexTree.search index (some key)) fun rids =>
          (Generator.ofList rids).forEach fun rid =>
            .after (right.get rid) fun record => .yield (values ++ record.values) .done
  | hashJoin hashTable right rightIndex _ _ => right.next.forEach fun record =>
      .after (Schema.valueAt record rightIndex) fun key =>
        match hashTable.get? key with
        | none => .done
        | some lefts => Generator.ofList (lefts.map (· ++ record))

/-! ## `open` -/

/-- `predicate.bind(schema)`, if there is a predicate. -/
def bindPredicate (schema : Schema) : Option (Expr String) → Except PyErr (Option (Expr Nat))
  | none => pure none
  | some predicate => do
      let predicate ← predicate.bind schema
      pure (some predicate)

def openSeqScan (table : Table τ) (predicate : Option (Expr String)) (yieldRid : Bool) :
    Except PyErr (Operator τ) := do
  let predicate ← bindPredicate table.scanSchema predicate
  pure (seqScan table table.scanSchema predicate yieldRid)

def openIndexScan (table : Table τ) (tree : τ) (lookup : Lookup) (predicate : Option (Expr String))
    (yieldRid : Bool) : Except PyErr (Operator τ) := do
  let predicate ← bindPredicate table.scanSchema predicate
  pure (indexScan table tree lookup table.scanSchema predicate yieldRid)

def openFilter (child : Operator τ) (predicate : Expr String) : Except PyErr (Operator τ) := do
  let predicate ← predicate.bind child.outputSchema
  pure (filter child predicate)

/-- `_source_column`. -/
def sourceColumn (schema : Schema) : Expr String → Option Column
  | .columnRef name =>
      match schema.columnNames.get? (lastPart name) with
      | some i => schema.columns[i]?
      | none => none
  | _ => none

/-- `_build_output_schema`. -/
def buildOutputSchema (schema : Schema) (projections : List (Expr String × String)) : Schema :=
  ⟨projections.map fun item =>
    match sourceColumn schema item.1 with
    | some column => { column with name := item.2 }
    | none => ⟨item.2, .varchar, none⟩⟩

def openProjection (child : Operator τ) (projections : List (Expr String × String)) :
    Except PyErr (Operator τ) := do
  let expressions ← projections.mapM fun item => item.1.bind child.outputSchema
  pure (projection child expressions (buildOutputSchema child.outputSchema projections))

def openIndexJoin (index : τ) (left : Operator τ) (leftKey : String) (right : Table τ)
    (rightKey : String) : Except PyErr (Operator τ) := do
  let leftIndex ← left.outputSchema.getIndex leftKey
  let _ ← right.scanSchema.getIndex rightKey
  pure (indexJoin index left leftIndex right left.outputSchema right.scanSchema)

/-- The loop that builds the hash table. -/
def buildHashTable (leftIndex : Nat) :
    Generator PyErr (List Value) → HashTable → Except PyErr HashTable
  | .done, hashTable => pure hashTable
  | .raised e, _ => .error e
  | .yield record rest, hashTable => do
      let key ← Schema.valueAt record leftIndex
      buildHashTable leftIndex rest (hashTable.add key record)

/-- `HashJoin.open`, which reads the left child to its end. -/
def openHashJoin [IndexTree τ] (left : Operator τ) (leftKey : String) (right : Operator τ)
    (rightKey : String) : Except PyErr (Operator τ) := do
  let leftIndex ← left.outputSchema.getIndex leftKey
  let hashTable ← buildHashTable leftIndex left.next []
  let rightIndex ← right.outputSchema.getIndex rightKey
  pure (hashJoin hashTable right rightIndex left.outputSchema right.outputSchema)

end Operator

end DBEngine
