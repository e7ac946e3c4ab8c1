import Mathlib.Data.Multiset.Filter
import DBEngine.Lib.Generator
import DBEngine.Catalog.Schema

/-!
# Tables

What the planner and the operators see of a table: the live tuples of its heap
file in the order of a scan, its schema and its indexes.  An index is any
structure that behaves as a multimap from keys to record ids.
-/

set_option autoImplicit false

namespace DBEngine

open ByteBuffer
open Binary64 (Extended rational)

/-! ## Indexes -/

/-- The operations of an index.  A key is `None` where a query gives no bound. -/
class IndexTree (τ : Type) where
  /-- `BPlusTree(bpm, file_id, True)` -/
  new : τ
  insert : τ → Value → Rid → Except PyErr τ
  delete : τ → Value → Rid → Except PyErr τ
  search : τ → Option Value → Except PyErr (List Rid)
  rangeScan : τ → Option Value → Option Value → Except PyErr (List Rid)

/-- The integer an `INT` field stores for a value. -/
def Value.asInt : Value → Option Int
  | .int v => some v
  | .bool b => some (if b then 1 else 0)
  | _ => none

/-- A bound of a range: a number, or none. -/
def Value.isBound : Option Value → Bool
  | none => true
  | some value =>
      match value.key with
      | .number _ => true
      | _ => false

/-- An integer key is not below a bound. -/
def Value.above (start : Option Value) (k : Int) : Bool :=
  match start with
  | none => true
  | some value =>
      match value.key with
      | .number x => x ≤ rational k
      | _ => false

/-- An integer key is not above a bound. -/
def Value.below (stop : Option Value) (k : Int) : Bool :=
  match stop with
  | none => true
  | some value =>
      match value.key with
      | .number x => rational k ≤ x
      | _ => false

/-- An entry of an index is under a key that is searched for. -/
def Value.matches (key : Option Value) (k : Int) : Bool :=
  match key with
  | none => false
  | some value => value.eq (.int k)

/-- An index that behaves as a multimap from integer keys to record ids.  A search or a
range scan that returns is exact; a search returns for every key that is no text, a
range scan for bounds that are numbers. -/
class Multimap (τ : Type) [IndexTree τ] where
  entries : τ → Multiset (Int × Rid)
  entries_new : entries IndexTree.new = 0
  insert_ok (t : τ) (key : Value) (k : Int) (rid : Rid) (hkey : key.asInt = some k) :
    ∃ t', IndexTree.insert t key rid = .ok t' ∧ entries t' = (k, rid) ::ₘ entries t
  delete_ok (t : τ) (key : Value) (k : Int) (rid : Rid) (hkey : key.asInt = some k) :
    ∃ t', IndexTree.delete t key rid = .ok t' ∧ entries t' = (entries t).erase (k, rid)
  search_ok (t : τ) (key : Value) (hkey : ∀ s, key.key ≠ .text s) :
    ∃ rids, IndexTree.search t (some key) = .ok rids
  search_exact (t : τ) (key : Option Value) (rids : List Rid)
    (hrids : IndexTree.search t key = .ok rids) :
    (rids : Multiset Rid) = ((entries t).filter fun e => Value.matches key e.1 = true).map Prod.snd
  rangeScan_ok (t : τ) (start stop : Option Value) (hstart : Value.isBound start = true)
    (hstop : Value.isBound stop = true) : ∃ rids, IndexTree.rangeScan t start stop = .ok rids
  rangeScan_exact (t : τ) (start stop : Option Value) (rids : List Rid)
    (hrids : IndexTree.rangeScan t start stop = .ok rids) :
    (rids : Multiset Rid) = ((entries t).filter fun e =>
      (Value.above start e.1 && Value.below stop e.1) = true).map Prod.snd

/-- The simplest such index: a list of entries. -/
structure EntryList where
  entries : List (Int × Rid)
  deriving DecidableEq

namespace EntryList

/-- The record ids of the entries whose key is selected. -/
def select (index : EntryList) (p : Int → Bool) : List Rid :=
  (index.entries.filter fun e => p e.1).map Prod.snd

theorem coe_select (index : EntryList) (p : Int → Bool) :
    (index.select p : Multiset Rid) =
      ((index.entries : Multiset (Int × Rid)).filter fun e => p e.1 = true).map Prod.snd := by
  rw [Multiset.filter_coe, Multiset.map_coe, select]
  simp

theorem coe_erase (entries : List (Int × Rid)) (e : Int × Rid) :
    (entries.erase e : Multiset (Int × Rid)) = (entries : Multiset (Int × Rid)).erase e := by
  induction entries with
  | nil => rfl
  | cons d entries ih =>
      by_cases hd : d = e
      · subst hd
        simp
      · rw [← Multiset.cons_coe, Multiset.erase_cons_tail _ hd, ← ih, Multiset.cons_coe,
          List.erase_cons_tail (by simpa using hd)]

instance : IndexTree EntryList where
  new := ⟨[]⟩
  insert index key rid :=
    match key.asInt with
    | some k => .ok ⟨(k, rid) :: index.entries⟩
    | none => .error .structError
  delete index key rid :=
    match key.asInt with
    | some k => .ok ⟨index.entries.erase (k, rid)⟩
    | none => .error .structError
  search index key :=
    match key with
    | none => .error (.typeError "no key")
    | some value =>
        match value.key with
        | .text _ => .error (.typeError "no number")
        | _ => .ok (index.select fun k => value.eq (.int k))
  rangeScan index start stop :=
    if Value.isBound start && Value.isBound stop then
      .ok (index.select fun k => Value.above start k && Value.below stop k)
    else .error (.typeError "no number")

theorem search_eq_ok {index : EntryList} {key : Option Value} {rids : List Rid}
    (h : IndexTree.search index key = .ok rids) : rids = index.select (Value.matches key) := by
  cases key with
  | none => simp [IndexTree.search] at h
  | some value =>
      cases hkey : value.key with
      | text s => simp [IndexTree.search, hkey] at h
      | nan =>
          simp only [IndexTree.search, hkey, Except.ok.injEq] at h
          exact h.symm
      | number x =>
          simp only [IndexTree.search, hkey, Except.ok.injEq] at h
          exact h.symm

instance : Multimap EntryList where
  entries index := index.entries
  entries_new := rfl
  insert_ok index key k rid hkey := ⟨⟨(k, rid) :: index.entries⟩, by simp [IndexTree.insert, hkey], rfl⟩
  delete_ok index key k rid hkey :=
    ⟨⟨index.entries.erase (k, rid)⟩, by simp [IndexTree.delete, hkey],
      coe_erase index.entries (k, rid)⟩
  search_ok index key hkey := by
    cases h : key.key with
    | text s => exact absurd h (hkey s)
    | nan => exact ⟨index.select fun k => key.eq (.int k), by simp only [IndexTree.search, h]⟩
    | number x => exact ⟨index.select fun k => key.eq (.int k), by simp only [IndexTree.search, h]⟩
  search_exact index key rids hrids := by
    rw [search_eq_ok hrids]
    exact coe_select index _
  rangeScan_ok index start stop hstart hstop :=
    ⟨_, by simp only [IndexTree.rangeScan, hstart, hstop]; rfl⟩
  rangeScan_exact index start stop rids hrids := by
    simp only [IndexTree.rangeScan] at hrids
    split at hrids
    · obtain rfl := Except.ok.inj hrids
      exact coe_select index _
    · simp at hrids

end EntryList

/-- The dictionary `{file_id, index_name, tree}` of an index. -/
structure IndexMeta (τ : Type) where
  fileId : Nat
  indexName : String
  tree : τ

/-! ## Tables -/

/-- A table: `heapFile` holds the live tuples of its heap file in scan order. -/
structure Table (τ : Type) where
  tableName : String
  schema : Schema
  heapFile : List (Rid × Bytes)
  indices : Dict String (IndexMeta τ)

namespace Table

variable {τ : Type}

/-- `heap_file.get_tuple`. -/
def getTuple (table : Table τ) (rid : Rid) : Option Bytes := Dict.get? table.heapFile rid

/-- `get`. -/
def get (table : Table τ) (rid : Rid) : Except PyErr Record :=
  match table.getTuple rid with
  | some raw => table.schema.deserialize raw rid
  -- `deserialize(None, rid)`
  | none =>
      if table.schema.columns.isEmpty then .ok ⟨[], rid⟩
      else .error (.typeError "a bytes-like object is required, not 'NoneType'")

/-- `scan`. -/
def scan (table : Table τ) : Generator PyErr Record :=
  (Generator.ofList table.heapFile).forEach fun item =>
    .after (table.schema.deserialize item.2 item.1) fun record => .yield record .done

/-- The loop of `delete` over the indexes. -/
def deleteFrom [IndexTree τ] (schema : Schema) (row : Record) (rid : Rid) :
    Dict String (IndexMeta τ) → Except PyErr (Dict String (IndexMeta τ))
  | [] => pure []
  | (colName, index) :: rest => do
      let colIndex ← schema.getIndex colName
      let value ← Schema.valueAt row.values colIndex
      let tree ← IndexTree.delete index.tree value rid
      let rest ← deleteFrom schema row rid rest
      pure ((colName, { index with tree := tree }) :: rest)

/-- `delete`: the table afterwards. -/
def delete [IndexTree τ] (table : Table τ) (rid : Rid) : Except PyErr (Table τ) := do
  let row ← table.get rid
  let indices ← deleteFrom table.schema row rid table.indices
  pure { table with heapFile := Dict.del table.heapFile rid, indices := indices }

end Table

end DBEngine
