import DBEngine.Catalog.IndexedRows
import DBEngine.Catalog.StoredCatalog
import DBEngine.Index.BTreeFootprint
import DBEngine.Index.BTreeUnfit

/-!
# A table and its files

A table over the pool as the catalog has it: a heap file of rows, and a B+ tree in a file
of its own for every index.  A method of the table works on these files and leaves all
others as they are; it returns with the rows and the trees changed by one row, or it
raises `struct.error`.
-/

set_option autoImplicit false

namespace DBEngine

open ByteBuffer Paged

/-- Nobody holds a page, and every change was saved. -/
structure Quiet (w : Flat FileId Bytes) : Prop where
  pins : w.pins = 0
  unsaved : w.unsaved = ∅

/-- A file that was never used. -/
structure Blank (f : FileId) (w : Flat FileId Bytes) : Prop where
  here : f ∉ w.gone
  size : w.size f = 0
  zeros : ∀ p, w.mem (f, p) = zeros pageSize

section

variable {f : FileId} {keep : FileId → Prop} {w w' : Flat FileId Bytes}

theorem Blank.of_sameOn (h : Blank f w) (hsame : Flat.SameOn keep w w') (hf : keep f) : Blank f w' :=
  ⟨fun hgone => h.here ((hsame.gone f hf).mp hgone), (hsame.size f hf).trans h.size,
    fun p => (hsame.mem (f, p) hf).trans (h.zeros p)⟩

theorem TreeRep.of_sameOn {t : BTree} {tree : BPlusTree} (h : TreeRep f w t tree)
    (hsame : Flat.SameOn keep w w') (hf : keep f) (hquiet : Quiet w') : TreeRep f w' t tree := by
  have hmem : ∀ p, w'.mem (f, p) = w.mem (f, p) := fun p => hsame.mem (f, p) hf
  refine ⟨idle_of_sameOn h.idle hsame hf hquiet.pins hquiet.unsaved, (hsame.size f hf).trans h.size, h.tree, ?_,
    h.levels.congr fun p _ => hmem p, h.chain.congr fun p _ => hmem p, fun p => ?_, h.format⟩
  · rw [hmem]
    exact h.header
  · rw [hmem]
    exact h.lengths p

end

/-! ## Records of a heap file -/

/-- The rows of a heap file, in the order of a scan. -/
def HasRows (schema : Schema) (f : FileId) (w : Flat FileId Bytes) (records : List Record) : Prop :=
  ∃ entries rows, RowsFile schema f w entries rows ∧
    (tuplesIn entries.length rows).mapM (fun item => schema.deserialize item.2 item.1) = .ok records

namespace HasRows

variable {σ : Type} {schema : Schema} {f : FileId} {w w' : Flat FileId Bytes} {records : List Record}

theorem idle (h : HasRows schema f w records) : w.Idle f := by
  obtain ⟨_, _, hfile, -⟩ := h
  exact hfile.heap.idle

theorem quiet (h : HasRows schema f w records) : Quiet w := ⟨h.idle.pins, h.idle.unsaved⟩

theorem nonempty (h : HasRows schema f w records) : w.size f ≠ 0 := by
  obtain ⟨_, _, hfile, -⟩ := h
  exact Nat.pos_iff_ne_zero.mp hfile.heap.nonempty

theorem of_sameOn {keep : FileId → Prop} (h : HasRows schema f w records) (hsame : Flat.SameOn keep w w')
    (hf : keep f) (hquiet : Quiet w') : HasRows schema f w' records := by
  obtain ⟨entries, rows, hfile, hrecords⟩ := h
  exact ⟨entries, rows, ⟨hfile.heap.of_sameOn hsame hf hquiet.pins hquiet.unsaved,
    hfile.exact_.of_sameOn hsame hf, hfile.stored⟩, hrecords⟩

theorem map_rid {items : List (Rid × Bytes)}
    (h : items.mapM (fun item => schema.deserialize item.2 item.1) = .ok records) :
    records.map Record.rid = items.map Prod.fst := by
  induction mapM_eq_ok.mp h with
  | nil => rfl
  | cons hread hrest ih => rw [List.map_cons, List.map_cons, ih (mapM_eq_ok.mpr hrest), Schema.rid_deserialize hread]

/-- Different records are under different record ids. -/
theorem nodup_rid (h : HasRows schema f w records) : (records.map Record.rid).Nodup := by
  obtain ⟨entries, rows, -, hrecords⟩ := h
  rw [map_rid hrecords, List.Nodup, List.pairwise_map]
  refine (pairwise_tuplesIn entries.length rows).imp fun {x y} hlt heq => ?_
  rw [heq, Prod.lex_def] at hlt
  omega

/-- A record that was read is a tuple of the file. -/
theorem exists_raw (h : HasRows schema f w records) {record : Record} (hmem : record ∈ records) :
    ∃ raw, schema.deserialize raw record.rid = .ok record := by
  obtain ⟨entries, rows, -, hrecords⟩ := h
  obtain ⟨⟨rid, raw⟩, -, hread⟩ := exists_of_forall₂ (mapM_eq_ok.mp hrecords) hmem
  obtain rfl : record.rid = rid := Schema.rid_deserialize hread
  exact ⟨raw, hread⟩

theorem run_scan {table : StoredTable} (h : HasRows table.schema table.fileId w records) (s : σ) :
    (table.scan : PageProg σ (List Record)).run carefulStore s w = (.ok records, s, w) := by
  obtain ⟨entries, rows, hfile, hrecords⟩ := h
  rw [hfile.run_scan s, hrecords]

/-- A new heap file has no rows. -/
theorem ends_create {table : StoredTable} (hblank : Blank table.fileId w) (hquiet : Quiet w) (s : σ) :
    (table.create : PageProg σ Unit).Ends carefulStore (fun _ => False) s w fun _ s' w' =>
      s' = s ∧ HasRows table.schema table.fileId w' [] ∧ Flat.SameOn (· ≠ table.fileId) w w' := by
  have hidle : w.Idle table.fileId := ⟨hblank.here, hquiet.pins, hquiet.unsaved⟩
  obtain ⟨b, hrun, hdir⟩ := HeapFile.run_createDirectory (c := carefulStore) (s := s)
    (accepts_anyBlock table.fileId) hidle hblank.size (by simp [hblank.zeros])
  have hopen := HeapOpen.created hidle hblank.zeros hdir
  refine Prog.ends_of_run hrun ⟨rfl, ⟨[], fun _ => [], ⟨hopen, ⟨?_, by simp⟩, by simp [tuplesIn]⟩, rfl⟩,
    Flat.sameOn_run HeapFile.tidy_createDirectory.only hrun⟩
  simp [hblank.size]

/-- A row goes in as one record more, or there is no room for it. -/
theorem ends_insertTuple (h : HasRows schema f w records) {row : List Value} {raw : Bytes}
    (hraw : schema.serialize row = .ok (some raw)) (s : σ) :
    (HeapFile.insertTuple f raw : PageProg σ Rid).Ends carefulStore (· = .structError) s w fun rid s' w' =>
      s' = s ∧ Flat.SameOn (· ≠ f) w w' ∧ ∃ record records', HasRows schema f w' records' ∧
        schema.deserialize raw rid = .ok record ∧ records'.Perm (record :: records) := by
  obtain ⟨entries, rows, hfile, hrecords⟩ := h
  rcases (hfile.ends_insertTuple (c := carefulStore) hraw s).cases with
    ⟨e, s', w', hrun, he⟩ | ⟨rid, s', w', hrun, rfl, entries', rows', hfile', hperm⟩
  · exact Prog.ends_of_error hrun he
  · have hread := Schema.deserialize_of_serialize (Schema.distinct_of_serialize hraw) hraw [] rid
    rw [List.append_nil] at hread
    obtain ⟨records', hrecords'⟩ := hfile'.exists_records
    refine Prog.ends_of_run hrun ⟨rfl, Flat.sameOn_run (HeapFile.tidy_insertTuple raw).only hrun, _, records',
      ⟨entries', rows', hfile', hrecords'⟩, hread, ?_⟩
    refine perm_of_mapM (hperm.trans (List.perm_append_singleton _ _)) hrecords' ?_
    rw [List.mapM_cons, hread, hrecords]
    rfl

/-- A record is read by its record id. -/
theorem run_get {table : StoredTable} (h : HasRows table.schema table.fileId w records) {record : Record}
    (hmem : record ∈ records) (s : σ) :
    (table.get record.rid : PageProg σ Record).run carefulStore s w = (.ok record, s, w) := by
  obtain ⟨entries, rows, hfile, hrecords⟩ := h
  obtain ⟨⟨rid, raw⟩, hitem, hread⟩ := exists_of_forall₂ (mapM_eq_ok.mp hrecords) hmem
  obtain rfl : record.rid = rid := Schema.rid_deserialize hread
  rw [hfile.run_get hitem s, hread]

/-- A record is taken out by its record id. -/
theorem run_deleteTuple (h : HasRows schema f w records) {record : Record} (hmem : record ∈ records) (s : σ) :
    ∃ w' records', (HeapFile.deleteTuple f record.rid : PageProg σ Bool).run carefulStore s w = (.ok true, s, w') ∧
      Flat.SameOn (· ≠ f) w w' ∧ HasRows schema f w' records' ∧ records.Perm (record :: records') := by
  obtain ⟨entries, rows, hfile, hrecords⟩ := h
  obtain ⟨⟨rid, raw⟩, hitem, hread⟩ := exists_of_forall₂ (mapM_eq_ok.mp hrecords) hmem
  obtain rfl : record.rid = rid := Schema.rid_deserialize hread
  obtain ⟨w', rows', hrun, -, hfile', hperm⟩ := hfile.run_deleteTuple (c := carefulStore) hitem s
  obtain ⟨records', hrecords'⟩ := hfile'.exists_records
  refine ⟨w', records', hrun, Flat.sameOn_run (HeapFile.tidy_deleteTuple _).only hrun,
    ⟨entries, rows', hfile', hrecords'⟩, perm_of_mapM hperm hrecords ?_⟩
  rw [List.mapM_cons, hread, hrecords']
  rfl

end HasRows

/-! ## Single indexes -/

/-- The file of an index and its tree object are a tree. -/
structure TreeAt (f : FileId) (w : Flat FileId Bytes) (tree : BPlusTree) (t : BTree) : Prop where
  shape : t.Shape
  rep : TreeRep f w t tree

namespace TreeAt

variable {f : FileId} {w w' : Flat FileId Bytes} {tree : BPlusTree} {t : BTree} {value : Value} {k : Int} {rid : Rid}

theorem quiet (h : TreeAt f w tree t) : Quiet w := ⟨h.rep.idle.pins, h.rep.idle.unsaved⟩

theorem of_sameOn {keep : FileId → Prop} (h : TreeAt f w tree t) (hsame : Flat.SameOn keep w w') (hf : keep f)
    (hquiet : Quiet w') : TreeAt f w' tree t := ⟨h.shape, h.rep.of_sameOn hsame hf hquiet⟩

theorem inFile_insert : InFile f (IndexFile.insert f value rid : PageProg BPlusTree Unit) := by
  cases hk : value.asInt with
  | none =>
      simp only [IndexFile.insert, hk]
      exact Prog.only_raise _
  | some k =>
      simp only [IndexFile.insert, hk]
      exact BPlusTree.inFile_insert k rid

theorem inFile_delete : InFile f (IndexFile.delete f value rid : PageProg BPlusTree Unit) := by
  cases hk : value.asInt with
  | none =>
      simp only [IndexFile.delete, hk]
      exact Prog.only_pure ()
  | some k =>
      simp only [IndexFile.delete, hk]
      exact Prog.only_bind (BPlusTree.inFile_delete k rid) fun _ => Prog.only_pure ()

/-- A new index. -/
theorem ends_create {fails : PyErr → Prop} (hblank : Blank f w) (hquiet : Quiet w) (tree : BPlusTree) :
    (IndexFile.create f : PageProg BPlusTree Unit).Ends carefulStore fails tree w fun _ tree' w' =>
      TreeAt f w' tree' BTree.empty ∧ Flat.SameOn (· ≠ f) w w' := by
  obtain ⟨w', hrun, hrep⟩ := DBEngine.run_create (c := carefulStore) tree
    ⟨hblank.here, hquiet.pins, hquiet.unsaved⟩ hblank.size fun p => by simp [hblank.zeros]
  exact Prog.ends_of_run hrun ⟨⟨BTree.shape_empty, hrep⟩, Flat.sameOn_run BPlusTree.inFile_create hrun⟩

/-- One entry more, unless it cannot be packed or the file is at its limits. -/
theorem ends_insert (h : TreeAt f w tree t) (hk : value.asInt = some k) :
    (IndexFile.insert f value rid : PageProg BPlusTree Unit).Ends carefulStore (· = .structError) tree w
      fun _ tree' w' => TreeAt f w' tree' (t.insert k rid) ∧
        ((t.insert k rid).entries : Multiset (Int × Rid)) = (k, rid) ::ₘ t.entries ∧ Flat.SameOn (· ≠ f) w w' := by
  have hprog : (IndexFile.insert f value rid : PageProg BPlusTree Unit) = BPlusTree.insert f k rid := by
    simp only [IndexFile.insert, hk]
  rw [hprog]
  by_cases hfits : EntryFits (k, rid)
  · rcases DBEngine.run_insert (c := carefulStore) h.shape h.rep hfits.1 hfits.2 with
      ⟨-, tree', w', hrun⟩ | ⟨tree', w', hrun, hrep⟩
    · exact Prog.ends_of_error hrun rfl
    · have hinserted := h.shape.insert hfits.1 hfits.2
      refine Prog.ends_of_run hrun ⟨⟨hinserted.shape, hrep⟩, ?_, Flat.sameOn_run (BPlusTree.inFile_insert k rid) hrun⟩
      rw [Multiset.coe_eq_coe.mpr hinserted.entries, Multiset.cons_coe]
  · obtain ⟨tree', w', hrun⟩ := run_insert_raises (c := carefulStore) h.shape h.rep hfits
    exact Prog.ends_of_error hrun rfl

/-- One entry fewer, if its leaf is reached from the root. -/
theorem ends_delete (h : TreeAt f w tree t) (hk : value.asInt = some k) :
    (IndexFile.delete f value rid : PageProg BPlusTree Unit).Ends carefulStore (· = .structError) tree w
      fun _ tree' w' => TreeAt f w' tree' (t.delete k rid).2 ∧
        (((t.delete k rid).2.entries : Multiset (Int × Rid)) = t.entries ∨
          ((t.delete k rid).2.entries : Multiset (Int × Rid)) = (t.entries : Multiset (Int × Rid)).erase (k, rid)) ∧
        Flat.SameOn (· ≠ f) w w' := by
  have hprog : (IndexFile.delete f value rid : PageProg BPlusTree Unit) =
      (BPlusTree.delete f k rid >>= fun _ => pure ()) := by
    simp only [IndexFile.delete, hk]
  rw [hprog]
  rcases DBEngine.run_delete (c := carefulStore) h.shape h.rep k rid with
    ⟨-, -, tree', w', hrun⟩ | ⟨tree', w', hrun, hrep⟩
  · exact Prog.ends_of_error (Prog.run_bind_error hrun) rfl
  · have hsame := Flat.sameOn_run (BPlusTree.inFile_delete k rid) hrun
    refine Prog.ends_step hrun (Prog.ends_pure ?_)
    rcases h.shape.delete k rid with hnone | ⟨t', hsome, hdeleted⟩
    · rw [hnone] at hrep ⊢
      exact ⟨⟨h.shape, hrep⟩, .inl rfl, hsame⟩
    · rw [hsome] at hrep ⊢
      refine ⟨⟨hdeleted.shape, hrep⟩, .inr ?_, hsame⟩
      rw [Multiset.coe_eq_coe.mpr hdeleted.entries, ← Multiset.cons_coe, Multiset.erase_cons_head]

/-- A tree object made again, with the number of keys that the header has. -/
theorem ends_open (h : TreeAt f w tree t) (object : BPlusTree) :
    (BPlusTree.openIndex f).Ends carefulStore (fun _ => False) object w fun _ tree' w' =>
      w' = w ∧ TreeAt f w tree' { t with numKeys := t.stored } :=
  Prog.ends_of_run (run_openIndex h.rep object) ⟨rfl, h.shape.reopened, h.rep.reopened⟩

end TreeAt

/-! ## All indexes of a table -/

namespace StoredTable

variable {α : Type} {W : Type} {c : Store FileId Bytes PyErr W} {fails : PyErr → Prop} {w₀ : W}

/-- A method of one tree, among the trees of the table. -/
theorem ends_onTree {colName : String} {p : PageProg BPlusTree α} {trees : String → BPlusTree}
    {post : α → (String → BPlusTree) → W → Prop}
    (hp : p.Ends c fails (trees colName) w₀ fun a tree w => post a (Function.update trees colName tree) w) :
    (onTree colName p).Ends c fails trees w₀ post :=
  hp.zoom (fun _ _ => Function.update_self ..) (fun _ _ _ => by simp) fun _ => by simp

variable {schema : Schema} {row : List Value} {rid : Rid} {w w' : Flat FileId Bytes}

/-- The files of the indexes. -/
def indexFiles (indices : Dict String IndexEntry) : List FileId := indices.map fun item => item.2.fileId

/-- Every index is a tree, by its column. -/
def TreesAt (indices : Dict String IndexEntry) (w : Flat FileId Bytes) (trees : String → BPlusTree)
    (forest : String → BTree) : Prop :=
  ∀ item ∈ indices, TreeAt item.2.fileId w (trees item.1) (forest item.1)

theorem mem_indexFiles {indices : Dict String IndexEntry} {item : String × IndexEntry} (h : item ∈ indices) :
    item.2.fileId ∈ indexFiles indices := List.mem_map_of_mem (f := fun item : String × IndexEntry => item.2.fileId) h

theorem TreesAt.of_sameOn {indices : Dict String IndexEntry} {trees : String → BPlusTree} {forest : String → BTree}
    {keep : FileId → Prop} (h : TreesAt indices w trees forest) (hsame : Flat.SameOn keep w w')
    (hkeep : ∀ f ∈ indexFiles indices, keep f) (hquiet : Quiet w') : TreesAt indices w' trees forest :=
  fun item hitem => (h item hitem).of_sameOn hsame (hkeep _ (mem_indexFiles hitem)) hquiet

/-- What a method of an index makes of its tree. -/
def Turns (op : FileId → Value → Rid → PageProg BPlusTree Unit) (turned : Int → Rid → BTree → BTree → Prop) : Prop :=
  ∀ f value k rid tree w t, value.asInt = some k → TreeAt f w tree t →
    (op f value rid).Ends carefulStore (· = .structError) tree w fun _ tree' w' =>
      ∃ t', TreeAt f w' tree' t' ∧ turned k rid t t' ∧ Flat.SameOn (· ≠ f) w w'

theorem turns_insert : Turns IndexFile.insert fun k rid t t' => t' = t.insert k rid ∧
    (t'.entries : Multiset (Int × Rid)) = (k, rid) ::ₘ t.entries := fun _ _ _ _ _ _ _ hk h =>
  (h.ends_insert hk).mono fun _ _ _ hpost => ⟨_, hpost.1, ⟨rfl, hpost.2.1⟩, hpost.2.2⟩

theorem turns_delete : Turns IndexFile.delete fun k rid t t' => t' = (t.delete k rid).2 ∧
    ((t'.entries : Multiset (Int × Rid)) = t.entries ∨
      (t'.entries : Multiset (Int × Rid)) = (t.entries : Multiset (Int × Rid)).erase (k, rid)) :=
  fun _ _ _ _ _ _ _ hk h =>
  (h.ends_delete hk).mono fun _ _ _ hpost => ⟨_, hpost.1, ⟨rfl, hpost.2.1⟩, hpost.2.2⟩

variable (schema row rid) in
/-- The loop turns every tree by the key that the row has in its column; without trees nothing can
go wrong. -/
theorem ends_forIndexes {op : FileId → Value → Rid → PageProg BPlusTree Unit}
    {turned : Int → Rid → BTree → BTree → Prop} (hop : Turns op turned) {indices : Dict String IndexEntry}
    (hnames : (indices.map Prod.fst).Nodup) (hfiles : (indexFiles indices).Nodup)
    (hkeys : ∀ item ∈ indices, ∃ k, keyAt schema row item.1 = some k) {trees : String → BPlusTree}
    {forest : String → BTree} (hquiet : Quiet w) (htrees : TreesAt indices w trees forest) :
    (forIndexes op schema row rid indices).Ends carefulStore (fun e => e = .structError ∧ indices ≠ []) trees w
      fun _ trees' w' =>
      Quiet w' ∧ Flat.SameOn (· ∉ indexFiles indices) w w' ∧ (∀ name ∉ indices.map Prod.fst, trees' name = trees name) ∧
        ∃ forest', TreesAt indices w' trees' forest' ∧
          ∀ item ∈ indices, ∀ k, keyAt schema row item.1 = some k → turned k rid (forest item.1) (forest' item.1) := by
  induction indices generalizing trees w with
  | nil => exact Prog.ends_pure ⟨hquiet, .refl _ w, fun _ _ => rfl, forest, by simp [TreesAt], by simp⟩
  | cons item rest ih =>
      obtain ⟨colName, index⟩ := item
      rw [List.map_cons, List.nodup_cons] at hnames
      rw [indexFiles, List.map_cons, List.nodup_cons] at hfiles
      obtain ⟨k, hk⟩ := hkeys _ List.mem_cons_self
      obtain ⟨i, value, hindex, hvalue, hasInt⟩ := keyAt_eq_some hk
      rw [forIndexes, hindex]
      refine Prog.ends_step (Prog.run_ofExcept _ _ _) ?_
      rw [hvalue]
      refine Prog.ends_step (Prog.run_ofExcept _ _ _) ?_
      -- the first tree, with the others as they were
      have hfirst : (onTree colName (op index.fileId value rid)).Ends carefulStore
          (fun e => e = .structError ∧ (colName, index) :: rest ≠ []) trees w fun _ trees₁ w₁ => ∃ tree₁ t₁, trees₁ = Function.update trees colName tree₁ ∧
            TreeAt index.fileId w₁ tree₁ t₁ ∧ turned k rid (forest colName) t₁ ∧
              Flat.SameOn (· ≠ index.fileId) w w₁ := by
        refine ends_onTree (((hop _ _ _ rid _ _ _ hasInt (htrees _ List.mem_cons_self)).imp
          fun e he => ⟨he, by simp⟩).mono ?_)
        rintro _ tree₁ w₁ ⟨t₁, hat, hturned, hsame⟩
        exact ⟨tree₁, t₁, rfl, hat, hturned, hsame⟩
      refine hfirst.bind ?_
      rintro _ _ w₁ ⟨tree₁, t₁, rfl, hat, hturned, hsame⟩
      have hother : ∀ item ∈ rest, item.1 ≠ colName ∧ item.2.fileId ≠ index.fileId := by
        intro item hitem
        have hname : item.1 ∈ rest.map Prod.fst := List.mem_map_of_mem hitem
        have hfile : item.2.fileId ∈ indexFiles rest := mem_indexFiles hitem
        exact ⟨fun heq => hnames.1 (heq ▸ hname), fun heq => hfiles.1 (heq ▸ hfile)⟩
      have hrest : TreesAt rest w₁ (Function.update trees colName tree₁) forest := fun item hitem => by
        rw [Function.update_of_ne (hother item hitem).1]
        exact (htrees item (List.mem_cons_of_mem _ hitem)).of_sameOn hsame (hother item hitem).2 hat.quiet
      refine ((ih hnames.2 hfiles.2 (fun item hitem => hkeys item (List.mem_cons_of_mem _ hitem)) hat.quiet
        hrest).imp fun e he => ⟨he.1, by simp⟩).mono ?_
      rintro _ trees' w' ⟨hquiet', hsame', hnamed, forest', hforest, hall⟩
      refine ⟨hquiet', (hsame.mono fun g hg => ?_).trans (hsame'.mono fun g hg => ?_), fun name hname => ?_,
        Function.update forest' colName t₁, fun item hitem => ?_, fun item hitem k' hk' => ?_⟩
      · exact fun heq => hg (heq ▸ List.mem_cons_self)
      · exact fun hmem => hg (List.mem_cons_of_mem _ hmem)
      · rw [List.map_cons, List.mem_cons, not_or] at hname
        rw [hnamed name hname.2, Function.update_of_ne hname.1]
      · rcases List.mem_cons.mp hitem with rfl | hitem
        · rw [hnamed colName hnames.1, Function.update_self, Function.update_self]
          exact hat.of_sameOn hsame' hfiles.1 hquiet'
        · rw [Function.update_of_ne (hother item hitem).1]
          exact hforest item hitem
      · rcases List.mem_cons.mp hitem with rfl | hitem
        · obtain rfl : k = k' := Option.some.inj (hk.symm.trans hk')
          rw [Function.update_self]
          exact hturned
        · rw [Function.update_of_ne (hother item hitem).1]
          exact hall item hitem k' hk'

/-- The loop of `load` makes the tree objects again. -/
theorem ends_openTrees {indices : Dict String IndexEntry} (hnames : (indices.map Prod.fst).Nodup)
    {forest : String → BTree} {kept trees : String → BPlusTree} (htrees : TreesAt indices w kept forest) :
    (openTrees indices).Ends carefulStore (fun _ => False) trees w fun _ trees' w' =>
      w' = w ∧ (∀ name ∉ indices.map Prod.fst, trees' name = trees name) ∧
        TreesAt indices w trees' fun name => { forest name with numKeys := (forest name).stored } := by
  induction indices generalizing trees with
  | nil => exact Prog.ends_pure ⟨rfl, fun _ _ => rfl, by simp [TreesAt]⟩
  | cons item rest ih =>
      rw [List.map_cons, List.nodup_cons] at hnames
      rw [openTrees]
      have hfirst : (onTree item.1 (BPlusTree.openIndex item.2.fileId)).Ends carefulStore (fun _ => False) trees w
          fun _ trees₁ w₁ => w₁ = w ∧ ∃ tree₁, trees₁ = Function.update trees item.1 tree₁ ∧
            TreeAt item.2.fileId w tree₁ { forest item.1 with numKeys := (forest item.1).stored } :=
        ends_onTree (((htrees item List.mem_cons_self).ends_open _).mono fun _ tree₁ w₁ ⟨hw, hat⟩ =>
          ⟨hw, tree₁, rfl, hat⟩)
      refine hfirst.bind fun _ trees₁ w₁ ⟨hw, tree₁, htrees₁, hat⟩ => ?_
      subst htrees₁ hw
      refine (ih hnames.2 fun other hother => htrees other (List.mem_cons_of_mem _ hother)).mono
        fun _ trees' w' ⟨hw, hnamed, hrest⟩ => ⟨hw, fun name hname => ?_, fun other hother => ?_⟩
      · rw [List.map_cons, List.mem_cons, not_or] at hname
        rw [hnamed name hname.2, Function.update_of_ne hname.1]
      · rcases List.mem_cons.mp hother with rfl | hother
        · rw [hnamed _ hnames.1, Function.update_self]
          exact hat
        · exact hrest other hother

end StoredTable

/-! ## Tables -/

/-- A table between two calls: its rows, and in every index an entry for each of them. -/
structure TableAt (table : StoredTable) (w : Flat FileId Bytes) (trees : String → BPlusTree)
    (records : List Record) (forest : String → BTree) : Prop where
  rows : HasRows table.schema table.fileId w records
  trees : StoredTable.TreesAt table.indices w trees forest
  column : ∀ item ∈ table.indices, ∃ i, table.schema.IntAt item.1 i
  entries : ∀ item ∈ table.indices, ∀ i, table.schema.IntAt item.1 i →
    TableSession.entriesOf records i ≤ ((forest item.1).entries : Multiset (Int × Rid))

/-- No file of a table has two uses, and no column two indexes. -/
structure StoredTable.Apart (table : StoredTable) : Prop where
  names : (table.indices.map Prod.fst).Nodup
  files : (table.fileId :: StoredTable.indexFiles table.indices).Nodup

namespace TableAt

open StoredTable TableSession

variable {table : StoredTable} {w w' : Flat FileId Bytes} {trees : String → BPlusTree} {records : List Record}
  {forest : String → BTree}

theorem quiet (h : TableAt table w trees records forest) : Quiet w := h.rows.quiet

theorem of_sameOn {keep : FileId → Prop} (h : TableAt table w trees records forest)
    (hsame : Flat.SameOn keep w w') (hkeep : ∀ f ∈ table.fileId :: indexFiles table.indices, keep f)
    (hquiet : Quiet w') : TableAt table w' trees records forest :=
  ⟨h.rows.of_sameOn hsame (hkeep _ List.mem_cons_self) hquiet,
    h.trees.of_sameOn hsame (fun f hf => hkeep f (List.mem_cons_of_mem _ hf)) hquiet, h.column, h.entries⟩

/-- `create_table`. -/
theorem ends_create (hindices : table.indices = []) (hblank : Blank table.fileId w) (hquiet : Quiet w)
    (forest : String → BTree) :
    (table.create : PageProg (String → BPlusTree) Unit).Ends carefulStore (fun _ => False) trees w
      fun _ trees' w' => TableAt table w' trees' [] forest ∧ Flat.SameOn (· ≠ table.fileId) w w' := by
  refine (HasRows.ends_create hblank hquiet trees).mono fun _ trees' w' ⟨_, hrows, hsame⟩ => ⟨⟨hrows, ?_, ?_, ?_⟩, hsame⟩
  all_goals simp [TreesAt, hindices]

/-- A row that is inserted is in the heap file and in every index. -/
theorem ends_insert (h : TableAt table w trees records forest) (hapart : table.Apart) {row : List Value}
    {raw : Bytes} (hraw : table.schema.serialize row = .ok (some raw)) :
    (table.insert row : PageProg (String → BPlusTree) Rid).Ends carefulStore (· = .structError) trees w
      fun rid trees' w' => Flat.SameOn (· ∉ table.fileId :: indexFiles table.indices) w w' ∧
        ∃ record records' forest', TableAt table w' trees' records' forest' ∧
          table.schema.deserialize raw rid = .ok record ∧ records'.Perm (record :: records) := by
  have hfiles := List.nodup_cons.mp hapart.files
  rw [StoredTable.insert, hraw]
  refine Prog.ends_step (Prog.run_ofExcept _ _ _) ?_
  rw [StoredTable.insertTuple]
  refine (h.rows.ends_insertTuple hraw trees).bind ?_
  rintro rid trees₁ w₁ ⟨rfl, hsame₁, record, records', hrows, hread, hperm⟩
  have hkeys : ∀ item ∈ table.indices, ∃ k, keyAt table.schema row item.1 = some k := fun item hitem => by
    obtain ⟨i, hi⟩ := h.column item hitem
    exact ⟨_, hi.keyAt_row hraw hread⟩
  have htrees := h.trees.of_sameOn hsame₁ (fun f hf heq => hfiles.1 (heq ▸ hf)) hrows.quiet
  rw [insertEntries_eq]
  refine ((ends_forIndexes table.schema row rid turns_insert hapart.names hfiles.2 hkeys hrows.quiet
    htrees).imp fun e he => he.1).bind ?_
  rintro _ trees₂ w₂ ⟨hquiet, hsame₂, -, forest', htrees', hall⟩
  refine Prog.ends_pure ⟨?_, record, records', forest', ?_⟩
  · exact (hsame₁.mono fun f hf heq => hf (heq ▸ List.mem_cons_self)).trans
      (hsame₂.mono fun f hf hmem => hf (List.mem_cons_of_mem _ hmem))
  · refine ⟨⟨hrows.of_sameOn hsame₂ hfiles.1 hquiet, htrees', h.column, fun item hitem i hi => ?_⟩, hread, hperm⟩
    obtain ⟨-, hentries⟩ := hall item hitem _ (hi.keyAt_row hraw hread)
    rw [entriesOf_perm hperm, entriesOf_cons, hentries, Schema.rid_deserialize hread]
    exact Multiset.cons_le_cons _ (h.entries item hitem i hi)

/-- A row that is deleted is gone from the heap file; an index may keep its entry.  Without indexes
nothing can go wrong. -/
theorem ends_delete (h : TableAt table w trees records forest) (hapart : table.Apart) {record : Record}
    (hmem : record ∈ records) :
    (table.delete record.rid : PageProg (String → BPlusTree) Bool).Ends carefulStore
      (fun e => e = .structError ∧ table.indices ≠ []) trees w fun _ trees' w' => Flat.SameOn (· ∉ table.fileId :: indexFiles table.indices) w w' ∧
        ∃ records' forest', TableAt table w' trees' records' forest' ∧ records.Perm (record :: records') := by
  have hfiles := List.nodup_cons.mp hapart.files
  obtain ⟨raw, hread⟩ := h.rows.exists_raw hmem
  obtain ⟨w₁, records', hrun, hsame₁, hrows, hperm⟩ := h.rows.run_deleteTuple hmem trees
  rw [StoredTable.delete]
  refine Prog.ends_step (h.rows.run_get hmem trees) (Prog.ends_step hrun ?_)
  have hkeys : ∀ item ∈ table.indices, ∃ k, keyAt table.schema record.values item.1 = some k :=
    fun item hitem => by
      obtain ⟨i, hi⟩ := h.column item hitem
      exact ⟨_, (hi.keyAt_record hread).2⟩
  have htrees := h.trees.of_sameOn hsame₁ (fun f hf heq => hfiles.1 (heq ▸ hf)) hrows.quiet
  rw [deleteEntries_eq]
  refine (ends_forIndexes table.schema record.values record.rid turns_delete hapart.names hfiles.2 hkeys hrows.quiet
    htrees).bind ?_
  rintro _ trees₂ w₂ ⟨hquiet, hsame₂, -, forest', htrees', hall⟩
  refine Prog.ends_pure ⟨?_, records', forest', ⟨hrows.of_sameOn hsame₂ hfiles.1 hquiet, htrees', h.column, ?_⟩, hperm⟩
  · exact (hsame₁.mono fun f hf heq => hf (heq ▸ List.mem_cons_self)).trans
      (hsame₂.mono fun f hf hmem => hf (List.mem_cons_of_mem _ hmem))
  · intro item hitem i hi
    have hbefore := h.entries item hitem i hi
    rw [entriesOf_perm hperm, entriesOf_cons] at hbefore
    obtain ⟨-, hsame | herased⟩ := hall item hitem _ (hi.keyAt_record hread).2
    · exact hsame ▸ (Multiset.le_cons_self _ _).trans hbefore
    · rw [herased, ← Multiset.erase_cons_head (record.intAt i, record.rid) (entriesOf records' i)]
      exact Multiset.erase_le_erase _ hbefore

/-- The loop of `create_index` gives the new tree an entry for every row. -/
theorem ends_indexRecords (h : TableAt table w trees records forest) {colName : String} {i : Nat}
    (hi : table.schema.IntAt colName i) {fileId : FileId} (hfresh : fileId ≠ table.fileId)
    {trees₁ : String → BPlusTree} {w₁ : Flat FileId Bytes} (hsame : Flat.SameOn (· ≠ fileId) w w₁)
    (hnew : TreeAt fileId w₁ (trees₁ colName) BTree.empty) :
    (HeapFile.forEach table.fileId
        (fun _ rid raw => indexRecord table.schema fileId colName i rid raw) () :
        PageProg (String → BPlusTree) Unit).Ends carefulStore (fun e => e = .structError ∧ records ≠ []) trees₁ w₁
      fun _ trees' w' =>
      Flat.SameOn (· ≠ fileId) w w' ∧ (∀ name ≠ colName, trees' name = trees₁ name) ∧
        ∃ t, TreeAt fileId w' (trees' colName) t ∧ (t.entries : Multiset (Int × Rid)) = entriesOf records i := by
  obtain ⟨entries, rows, hfile, hrecords⟩ := h.rows
  let J (seen : List (Rid × Bytes)) (_ : Unit) (trees' : String → BPlusTree) (w' : Flat FileId Bytes) : Prop :=
    Flat.SameOn (· ≠ fileId) w w' ∧ (∀ name ≠ colName, trees' name = trees₁ name) ∧
      ∃ t before, TreeAt fileId w' (trees' colName) t ∧
        seen.mapM (fun item => table.schema.deserialize item.2 item.1) = .ok before ∧
        (t.entries : Multiset (Int × Rid)) = entriesOf before i
  have hopen : ∀ seen acc trees' w', J seen acc trees' w' → HeapOpen table.fileId w' entries rows := by
    rintro _ _ _ _ ⟨hsame, -, _, _, hat, -⟩
    exact hfile.heap.of_sameOn hsame hfresh.symm hat.quiet.pins hat.quiet.unsaved
  have hstep : ∀ seen item acc trees' w', item ∈ tuplesIn entries.length rows → J seen acc trees' w' →
      (indexRecord table.schema fileId colName i item.1 item.2 : PageProg (String → BPlusTree) Unit).Ends
        carefulStore (fun e => e = .structError ∧ records ≠ []) trees' w' (J (seen ++ [item])) := by
    rintro seen ⟨rid, raw⟩ - trees₂ w₂ hitem ⟨hsame, hnamed, t, before, hat, hbefore, hentries⟩
    obtain ⟨record, hread⟩ := exists_mapM_eq_ok.mp ⟨records, hrecords⟩ _ hitem
    have hsome : records ≠ [] := by
      rintro rfl
      rw [List.forall₂_nil_right_iff.mp (mapM_eq_ok.mp hrecords)] at hitem
      simp at hitem
    have hvalue : Schema.valueAt record.values i = .ok (.int (record.intAt i)) := by
      rw [Schema.valueAt, (hi.keyAt_record hread).1]
    rw [indexRecord, hread]
    refine Prog.ends_step (Prog.run_ofExcept _ _ _) ?_
    rw [hvalue]
    refine Prog.ends_step (Prog.run_ofExcept _ _ _) (ends_onTree
      (((hat.ends_insert rfl).imp fun e he => ⟨he, hsome⟩).mono ?_))
    rintro _ tree w₃ ⟨hat', hadded, hsame'⟩
    refine ⟨hsame.trans hsame', fun name hname => ?_, t.insert (record.intAt i) record.rid, before ++ [record], ?_, ?_, ?_⟩
    · rw [Function.update_of_ne hname, hnamed name hname]
    · rw [Function.update_self]
      exact hat'
    · exact mapM_eq_ok.mpr (List.rel_append (mapM_eq_ok.mp hbefore) (.cons hread .nil))
    · rw [hadded, hentries, entriesOf_perm (List.perm_append_singleton record before), entriesOf_cons]
  have hstart : J [] () trees₁ w₁ := ⟨hsame, fun _ _ => rfl, BTree.empty, [], hnew, rfl, rfl⟩
  have hloop : (HeapFile.forEach table.fileId
      (fun _ rid raw => indexRecord table.schema fileId colName i rid raw) () : PageProg (String → BPlusTree) Unit).Ends
        carefulStore (fun e => e = .structError ∧ records ≠ []) trees₁ w₁ (J (tuplesIn entries.length rows)) :=
    HeapFile.ends_forEach (accepts_anyBlock _) (fun {seen acc s w} hJ => hopen seen acc s w hJ) hstep hstart
  refine hloop.mono ?_
  rintro _ trees' w' ⟨hsame', hnamed, t, before, hat, hbefore, hentries⟩
  obtain rfl := Except.ok.inj (hrecords.symm.trans hbefore)
  exact ⟨hsame', hnamed, t, hat, hentries⟩

/-- A new index has exactly the rows; without rows nothing can go wrong. -/
theorem ends_createIndex (h : TableAt table w trees records forest) {colName : String} {i : Nat}
    (hi : table.schema.IntAt colName i) (hcolumn : colName ∉ table.indices.map Prod.fst) {fileId : FileId}
    (hfresh : fileId ∉ table.fileId :: indexFiles table.indices) (hblank : Blank fileId w) (indexName : String) :
    (table.createIndex indexName colName fileId : PageProg (String → BPlusTree) StoredTable).Ends carefulStore
      (fun e => e = .structError ∧ records ≠ []) trees w fun table' trees' w' =>
        table' = { table with indices := table.indices.set colName ⟨fileId, indexName⟩ } ∧
          Flat.SameOn (· ≠ fileId) w w' ∧ ∃ forest', TableAt table' w' trees' records forest' := by
  have hne : fileId ≠ table.fileId := fun heq => hfresh (heq ▸ List.mem_cons_self)
  have hold : ∀ item ∈ table.indices, item.1 ≠ colName ∧ item.2.fileId ≠ fileId := by
    intro item hitem
    have hname : item.1 ∈ table.indices.map Prod.fst := List.mem_map_of_mem hitem
    have hfile : item.2.fileId ∈ indexFiles table.indices := mem_indexFiles hitem
    exact ⟨fun heq => hcolumn (heq ▸ hname), fun heq => hfresh (List.mem_cons_of_mem _ (heq ▸ hfile))⟩
  rw [StoredTable.createIndex, if_neg fun hhas => hcolumn (Dict.has_iff_mem.mp hhas)]
  have hcreate : (onTree colName (IndexFile.create fileId) : PageProg (String → BPlusTree) Unit).Ends carefulStore
      (fun e => e = .structError ∧ records ≠ []) trees w fun _ trees₁ w₁ =>
        (∀ name ≠ colName, trees₁ name = trees name) ∧ TreeAt fileId w₁ (trees₁ colName) BTree.empty ∧
          Flat.SameOn (· ≠ fileId) w w₁ := by
    refine ends_onTree ((TreeAt.ends_create hblank h.quiet (trees colName)).mono ?_)
    rintro _ tree₁ w₁ ⟨hat, hsame⟩
    refine ⟨fun name hname => Function.update_of_ne hname _ _, ?_, hsame⟩
    rwa [Function.update_self]
  refine hcreate.bind ?_
  rintro _ trees₁ w₁ ⟨hnamed₁, hat₁, hsame₁⟩
  rw [Schema.getIndex_eq_ok.mpr hi.1]
  refine Prog.ends_step (Prog.run_ofExcept _ _ _) ((h.ends_indexRecords hi hne hsame₁ hat₁).bind ?_)
  rintro _ trees₂ w₂ ⟨hsame₂, hnamed₂, t, hat₂, hentries⟩
  refine Prog.ends_pure ⟨rfl, hsame₂, Function.update forest colName t,
    h.rows.of_sameOn hsame₂ hne.symm hat₂.quiet, ?_, ?_, ?_⟩
  all_goals
    intro item hitem
    rw [Dict.set_of_not_mem hcolumn] at hitem
    rcases List.mem_append.mp hitem with hitem | hlast
  -- the other indexes are as they were
  · rw [hnamed₂ _ (hold item hitem).1, hnamed₁ _ (hold item hitem).1, Function.update_of_ne (hold item hitem).1]
    exact (h.trees item hitem).of_sameOn hsame₂ (hold item hitem).2 hat₂.quiet
  · rw [List.mem_singleton.mp hlast, Function.update_self]
    exact hat₂
  · exact h.column item hitem
  · rw [List.mem_singleton.mp hlast]
    exact ⟨i, hi⟩
  · intro j hj
    rw [Function.update_of_ne (hold item hitem).1]
    exact h.entries item hitem j hj
  · intro j hj
    rw [List.mem_singleton.mp hlast] at hj ⊢
    rw [Function.update_self, hentries, hi.unique hj]

end TableAt

end DBEngine
