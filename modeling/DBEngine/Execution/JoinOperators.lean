import DBEngine.Execution.ScanRows

/-!
# The rows of a join

What the two join operators yield when their inputs yield given rows: both
the pairs of rows with equal keys.  The hash join goes through the rows of its
right input, the index join through those of its left input.
-/

set_option autoImplicit false

namespace DBEngine

/-! ## The hash table -/

/-- Two rows have equal values in two columns. -/
def equalAt (i j : Nat) (l r : List Value) : Bool :=
  match l[i]?, r[j]? with
  | some a, some b => a.eq b
  | _, _ => false

namespace HashTable

/-- The rows under a key. -/
def bucket (table : HashTable) (key : Value) : List (List Value) := (table.get? key).getD []

theorem bucket_cons (item : Value × List (List Value)) (table : HashTable) (key : Value) :
    bucket (item :: table) key = if item.1.eq key then item.2 else bucket table key := by
  unfold bucket get?
  rw [List.find?_cons]
  cases item.1.eq key <;> rfl

/-- A row that is added is found under every key equal to its own. -/
theorem bucket_add (table : HashTable) (key : Value) (record : List Value) (k : Value) :
    bucket (table.add key record) k = bucket table k ++ if key.eq k then [record] else [] := by
  induction table with
  | nil =>
      rw [add, bucket_cons]
      split <;> rfl
  | cons item table ih =>
      rw [add]
      split
      · rename_i hkey
        rw [bucket_cons, bucket_cons]
        by_cases hk : item.1.eq k = true
        · rw [if_pos hk, if_pos hk, if_pos (Value.eq_trans (by rwa [Value.eq_comm]) hk)]
        · have hne : ¬ key.eq k = true := fun h =>
            hk (Value.eq_trans hkey h)
          rw [if_neg hk, if_neg hk, if_neg hne, List.append_nil]
      · rename_i hkey
        rw [bucket_cons, bucket_cons]
        by_cases hk : item.1.eq k = true
        · have hne : ¬ key.eq k = true := fun h =>
            hkey (Value.eq_trans hk (by rwa [Value.eq_comm]))
          rw [if_pos hk, if_pos hk, if_neg hne, List.append_nil]
        · rw [if_neg hk, if_neg hk, ih]

end HashTable

namespace Operator

theorem exists_getElem? {row : List Value} {i : Nat} (h : i < row.length) :
    ∃ value, row[i]? = some value ∧ Schema.valueAt row i = .ok value := by
  have hget : row[i]? = some row[i] := List.getElem?_eq_getElem h
  exact ⟨row[i], hget, by rw [Schema.valueAt, hget]⟩

/-- The hash table of a list of rows holds under a key the rows whose own key is equal. -/
theorem buildHashTable_ok {i : Nat} {rows : List (List Value)} (hwidth : ∀ row ∈ rows, i < row.length) :
    ∀ table : HashTable, ∃ built, buildHashTable i (.ofList rows) table = .ok built ∧
      ∀ (r : List Value) (j : Nat) (key : Value), r[j]? = some key →
        built.bucket key = table.bucket key ++ rows.filter fun l => equalAt i j l r := by
  induction rows with
  | nil =>
      intro table
      exact ⟨table, rfl, fun r j key _ => (List.append_nil _).symm⟩
  | cons row rows ih =>
      intro table
      obtain ⟨value, hrow, hvalue⟩ := exists_getElem? (hwidth row List.mem_cons_self)
      obtain ⟨built, hbuilt, hbucket⟩ :=
        ih (fun l hl => hwidth l (List.mem_cons_of_mem row hl)) (table.add value row)
      refine ⟨built, ?_, fun r j key hkey => ?_⟩
      · rw [Generator.ofList, buildHashTable, hvalue]
        exact hbuilt
      · rw [hbucket r j key hkey, HashTable.bucket_add, List.append_assoc, List.filter_cons]
        have hequal : equalAt i j row r = value.eq key := by simp only [equalAt, hrow, hkey]
        rw [hequal]
        split <;> rfl

/-- A hash join yields, for every row of its right input, the rows of its left input
with an equal key. -/
theorem collect_hashJoin {τ : Type} [IndexTree τ] {left right : Operator τ} {leftKey rightKey : String}
    {i j : Nat} {lefts rights : List (List Value)} (hi : left.outputSchema.getIndex leftKey = .ok i)
    (hj : right.outputSchema.getIndex rightKey = .ok j) (hlefts : left.next.collect = .ok lefts)
    (hrights : right.next.collect = .ok rights) (hwidth : ∀ l ∈ lefts, i < l.length)
    (hwidth' : ∀ r ∈ rights, j < r.length) : ∃ operator,
      openHashJoin left leftKey right rightKey = .ok operator ∧
      operator.outputSchema = ⟨left.outputSchema.columns ++ right.outputSchema.columns⟩ ∧
      operator.next.collect = .ok (rights.flatMap fun r =>
        (lefts.filter fun l => equalAt i j l r).map fun l => l ++ r) := by
  obtain ⟨built, hbuilt, hbucket⟩ := buildHashTable_ok hwidth []
  rw [← Generator.eq_ofList hlefts] at hbuilt
  refine ⟨.hashJoin built right j left.outputSchema right.outputSchema, ?_, rfl, ?_⟩
  · rw [openHashJoin, hi]
    change (buildHashTable i left.next [] >>= _) = _
    rw [hbuilt]
    change (right.outputSchema.getIndex rightKey >>= _) = _
    rw [hj]
    rfl
  · rw [next]
    refine Generator.collect_forEach_ok hrights fun r hr => ?_
    obtain ⟨key, hkey, hvalue⟩ := exists_getElem? (hwidth' r hr)
    rw [hvalue, Generator.after_ok]
    have hmatch := hbucket r j key hkey
    rw [show HashTable.bucket [] key = [] from rfl, List.nil_append] at hmatch
    rw [← hmatch, HashTable.bucket]
    cases built.get? key with
    | none => rfl
    | some rows => exact Generator.collect_ofList _

end Operator

/-! ## Probing an index -/

section Probe

variable {τ : Type} [IndexTree τ] [Multimap τ] {table : Table τ} {records : List Record}

/-- What an index join yields for one row of its input. -/
theorem collect_probe (hrows : table.Holds records) {tree : τ} {j : Nat}
    (hindex : IndexesColumn tree records j) {rids : List Rid} {values : List Value} {i : Nat}
    {key : Value} (hkey : values[i]? = some key) (h : IndexTree.search tree (some key) = .ok rids) :
    ∃ rows : List (List Value),
      ((Generator.ofList rids).forEach fun rid => .after (table.get rid) fun record =>
        .yield (values ++ record.values) .done).collect = .ok rows ∧
      (rows : Multiset (List Value)) = ((records : Multiset Record).filter fun r =>
        equalAt i j values r.values = true).map fun r => values ++ r.values := by
  obtain ⟨visited, rfl, hvisited⟩ := exists_visited hindex
    (show (Lookup.eq (some key)).ask tree = .ok rids from h)
  have hmem : ∀ r ∈ visited, r ∈ records := by
    intro r hr
    have hr : r ∈ (visited : Multiset Record) := hr
    rw [hvisited] at hr
    exact (Multiset.mem_filter.mp hr).1
  refine ⟨visited.map fun r => values ++ r.values, ?_, ?_⟩
  · rw [forEach_get hrows hmem, List.map_eq_flatMap]
    exact Generator.collect_forEach_ok (Generator.collect_ofList visited) fun r _ => rfl
  · rw [← Multiset.map_coe, hvisited]
    refine congrArg _ (Multiset.filter_congr fun r hr => ?_)
    have hint := hindex.ints r hr
    simp only [Lookup.visits, Value.matches, equalAt, hkey, hint]

namespace Operator

/-- An index join yields, for every row of its input, the rows of its table with an
equal key; it raises when its index raises on the key of a row. -/
theorem collect_indexJoin (hrows : table.Holds records) {tree : τ} {j : Nat}
    (hindex : IndexesColumn tree records j) {left : Operator τ} {lefts : List (List Value)}
    (hlefts : left.next.collect = .ok lefts) {i : Nat} (hwidth : ∀ l ∈ lefts, i < l.length)
    (leftSchema rightSchema : Schema)
    (hsearch : ∀ l ∈ lefts, ∃ rids, IndexTree.search tree l[i]? = .ok rids) :
    ∃ rows : List (List Value),
      (indexJoin tree left i table leftSchema rightSchema).next.collect = .ok rows ∧
      (rows : Multiset (List Value)) = (lefts : Multiset (List Value)).bind fun l =>
        ((records : Multiset Record).filter fun r => equalAt i j l r.values = true).map fun r =>
          l ++ r.values := by
  have hbody : ∀ l ∈ lefts, ∃ rows : List (List Value),
      (Generator.after (Schema.valueAt l i) fun key =>
        .after (IndexTree.search tree (some key)) fun rids =>
          (Generator.ofList rids).forEach fun rid => .after (table.get rid) fun record =>
            .yield (l ++ record.values) .done).collect = .ok rows ∧
      (rows : Multiset (List Value)) = ((records : Multiset Record).filter fun r =>
        equalAt i j l r.values = true).map fun r => l ++ r.values := by
    intro l hl
    obtain ⟨key, hkey, hvalue⟩ := exists_getElem? (hwidth l hl)
    obtain ⟨rids, hrids⟩ := hsearch l hl
    rw [hkey] at hrids
    rw [hvalue, Generator.after_ok, hrids, Generator.after_ok]
    exact collect_probe hrows hindex hkey hrids
  choose! f hf hcoe using hbody
  refine ⟨lefts.flatMap f, ?_, ?_⟩
  · rw [next]
    exact Generator.collect_forEach_ok hlefts hf
  · rw [← Multiset.coe_bind]
    exact Multiset.bind_congr fun l hl => hcoe l hl

omit [Multimap τ] in
/-- An index join that returns has searched its index for the key of every row. -/
theorem search_of_collect_indexJoin {tree : τ} {left : Operator τ} {lefts : List (List Value)}
    (hlefts : left.next.collect = .ok lefts) {i : Nat} (hwidth : ∀ l ∈ lefts, i < l.length)
    {leftSchema rightSchema : Schema} {rows : List (List Value)}
    (h : (indexJoin tree left i table leftSchema rightSchema).next.collect = .ok rows) :
    ∀ l ∈ lefts, ∃ rids, IndexTree.search tree l[i]? = .ok rids := by
  intro l hl
  rw [next] at h
  obtain ⟨lefts', hlefts', hbody⟩ := Generator.collect_forEach_eq_ok h
  obtain rfl := Except.ok.inj (hlefts.symm.trans hlefts')
  obtain ⟨cs, hcs⟩ := hbody l hl
  obtain ⟨key, hkey, hvalue⟩ := exists_getElem? (hwidth l hl)
  rw [hvalue, Generator.after_ok] at hcs
  rw [hkey]
  cases hsearch : IndexTree.search tree (some key) with
  | ok rids => exact ⟨rids, rfl⟩
  | error e => simp [hsearch] at hcs

end Operator

end Probe

end DBEngine
