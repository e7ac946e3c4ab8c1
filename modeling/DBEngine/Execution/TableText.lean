import DBEngine.Execution.StatementHistory

/-!
# Answers as text

The table that `format_table` makes of the rows of an answer, at most fifteen of them: when it
raises, that all its lines are of the same width, and that the texts of the rows stand in it
where they are read again from the widths of the columns.
-/

set_option autoImplicit false

namespace DBEngine

namespace TableText

/-! ## `format_table` -/

/-- `str(row[i])`. -/
def cellText (row : List Value) (i : Nat) : Except PyErr String :=
  match row[i]? with
  | some value => Passed.toStr (some value)
  | none => .error .indexError

/-- `f' {text:<{width}} |'`. -/
def cell (width : Nat) (text : String) : String := " " ++ padRight width text ++ " |"

/-- The loop over the columns, from the column of number `i` on: the widths. -/
def columnWidths (rows : List (List Value)) : Nat → List Column → Except PyErr (List Nat)
  | _, [] => pure []
  | i, col :: columns => do
      let cells ← rows.mapM fun row => cellText row i
      let widths ← columnWidths rows (i + 1) columns
      pure (widest col.name cells :: widths)

/-- The cells of these texts; the columns and their widths are in step. -/
def joinCells (widths : List Nat) (texts : List String) : String :=
  "|" ++ String.join (List.zipWith cell widths texts)

/-- The loop over the values of a row; `column_widths[i]` raises when there are too many. -/
def rowCells : List Nat → List Value → Except PyErr (List String)
  | _, [] => pure []
  | widths, value :: row => do
      let text ← Passed.toStr (some value)
      match widths with
      | [] => .error .indexError
      | width :: widths => do
          let cells ← rowCells widths row
          pure (cell width text :: cells)

/-- The line of a row. -/
def rowLine (widths : List Nat) (row : List Value) : Except PyErr String := do
  let cells ← rowCells widths row
  pure ("|" ++ String.join cells)

/-- The lines of `format_table`. -/
def tableLines (columns : List Column) (results : List (List Value)) : Except PyErr (List String) := do
  let shown := results.take 15
  let widths ← columnWidths shown 0 columns
  let header := joinCells widths (columns.map Column.name)
  let breakRow := String.ofList (List.replicate header.length '-')
  let lines ← shown.mapM (rowLine widths)
  pure (breakRow :: header :: breakRow :: (lines ++ [breakRow]))

/-- `format_table`. -/
def formatTable (columns : List Column) (results : List (List Value)) : Except PyErr String := do
  let lines ← tableLines columns results
  pure ("\n".intercalate lines)

/-! ## Padded texts -/

theorem toList_padRight (width : Nat) (text : String) :
    (padRight width text).toList = text.toList ++ List.replicate (width - text.length) ' ' := by
  simp [padRight]

theorem length_padRight {width : Nat} {text : String} (h : text.length ≤ width) :
    (padRight width text).length = width := by
  rw [padRight, String.length_append, String.length_ofList, List.length_replicate]
  omega

theorem le_foldl_max (cells : List String) (start : Nat) :
    start ≤ cells.foldl (fun width cell => max width cell.length) start ∧
      ∀ cell ∈ cells, cell.length ≤ cells.foldl (fun width cell => max width cell.length) start := by
  induction cells generalizing start with
  | nil => simp
  | cons cell rest ih =>
      obtain ⟨hstart, hrest⟩ := ih (max start cell.length)
      rw [List.foldl_cons, List.forall_mem_cons]
      exact ⟨Nat.le_trans (Nat.le_max_left _ _) hstart, Nat.le_trans (Nat.le_max_right _ _) hstart, hrest⟩

theorem header_le_widest (header : String) (cells : List String) : header.length ≤ widest header cells :=
  (le_foldl_max cells header.length).1

theorem le_widest {header : String} {cells : List String} {text : String} (h : text ∈ cells) :
    text.length ≤ widest header cells :=
  (le_foldl_max cells header.length).2 text h

/-- The lines of `DESCRIBE` are all of one width. -/
theorem length_columnTableLines (columns : List (String × String)) :
    ∃ width, ∀ line ∈ columnTableLines columns, line.length = width := by
  refine ⟨widest "Columns" (columns.map Prod.fst) + 2 + widest "Type" (columns.map Prod.snd), ?_⟩
  have hline : ∀ {name type : String}, name.length ≤ widest "Columns" (columns.map Prod.fst) →
      type.length ≤ widest "Type" (columns.map Prod.snd) →
        (padRight (widest "Columns" (columns.map Prod.fst)) name ++ "  " ++
          padRight (widest "Type" (columns.map Prod.snd)) type).length =
            widest "Columns" (columns.map Prod.fst) + 2 + widest "Type" (columns.map Prod.snd) := by
    intro name type hname htype
    rw [String.length_append, String.length_append, length_padRight hname, length_padRight htype]
    rfl
  intro line hmem
  rw [columnTableLines, List.mem_cons, List.mem_cons, List.mem_map] at hmem
  rcases hmem with rfl | rfl | ⟨item, hitem, rfl⟩
  · exact hline (header_le_widest _ _) (header_le_widest _ _)
  · simp only [String.length_append, String.length_ofList, List.length_replicate]
    rfl
  · exact hline (le_widest (List.mem_map_of_mem hitem)) (le_widest (List.mem_map_of_mem hitem))

/-! ## Reading a line again -/

/-- The texts fit in columns of these widths. -/
def FitIn (widths : List Nat) (texts : List String) : Prop :=
  List.Forall₂ (fun width text => text.length ≤ width) widths texts

/-- The width of a line. -/
def lineWidth (widths : List Nat) : Nat := 1 + (widths.map (· + 3)).sum

theorem FitIn.length_joinCells {widths : List Nat} {texts : List String} (h : FitIn widths texts) :
    (joinCells widths texts).length = lineWidth widths := by
  have hcells : (String.join (List.zipWith cell widths texts)).length = (widths.map (· + 3)).sum := by
    induction h with
    | nil => rfl
    | @cons width text widths texts hfits _ ih =>
        rw [List.zipWith_cons_cons, String.join_cons, String.length_append, ih, cell, String.length_append,
          String.length_append, length_padRight hfits, List.map_cons, List.sum_cons]
        have hspace : (" " : String).length = 1 := rfl
        have hbar : (" |" : String).length = 2 := rfl
        omega
  rw [joinCells, String.length_append, hcells]
  rfl

/-- The texts between the bars of a line whose first bar was read. -/
def readCells : List Nat → List Char → List String
  | [], _ => []
  | width :: widths, line => String.ofList ((line.drop 1).take width) :: readCells widths (line.drop (width + 3))

/-- A line has these texts in columns of these widths, padded with blanks. -/
def Reads (widths : List Nat) (line : String) (texts : List String) : Prop :=
  FitIn widths texts ∧ readCells widths (line.toList.drop 1) = List.zipWith padRight widths texts

theorem FitIn.reads {widths : List Nat} {texts : List String} (h : FitIn widths texts) :
    Reads widths (joinCells widths texts) texts := by
  refine ⟨h, ?_⟩
  have hbar : (joinCells widths texts).toList.drop 1 = (String.join (List.zipWith cell widths texts)).toList := by
    rw [joinCells, String.toList_append]
    rfl
  rw [hbar]
  clear hbar
  induction h with
  | nil => rfl
  | @cons width text widths texts hfits _ ih =>
      have hlength : (padRight width text).toList.length = width := by
        rw [String.length_toList, length_padRight hfits]
      have hcell : (String.join (List.zipWith cell (width :: widths) (text :: texts))).toList =
          ' ' :: ((padRight width text).toList ++
            (' ' :: '|' :: (String.join (List.zipWith cell widths texts)).toList)) := by
        rw [List.zipWith_cons_cons, String.join_cons, String.toList_append, cell, String.toList_append,
          String.toList_append]
        simp
      have htext : String.ofList (((padRight width text).toList ++
          (' ' :: '|' :: (String.join (List.zipWith cell widths texts)).toList)).take width) = padRight width text := by
        rw [List.take_left' hlength, String.ofList_toList]
      have hrest : ((padRight width text).toList ++
          (' ' :: '|' :: (String.join (List.zipWith cell widths texts)).toList)).drop (width + 2) =
            (String.join (List.zipWith cell widths texts)).toList := by
        rw [← List.drop_drop, List.drop_left' hlength]
        rfl
      rw [hcell, readCells, List.drop_succ_cons, List.drop_zero, List.drop_succ_cons, htext, hrest, ih,
        List.zipWith_cons_cons]

/-! ## The texts of values -/

/-- `str` does not raise. -/
def HasText (value : Value) : Prop := ∃ text, Passed.toStr (some value) = .ok text

/-- What `str` returns. -/
def textOf (value : Value) : String :=
  match Passed.toStr (some value) with
  | .ok text => text
  | .error _ => ""

theorem toStr_eq_ok {value : Value} {text : String} :
    Passed.toStr (some value) = .ok text ↔ HasText value ∧ textOf value = text := by
  rw [HasText, textOf]
  cases Passed.toStr (some value) with
  | ok other => simp
  | error e => simp

theorem HasText.toStr_eq {value : Value} (h : HasText value) : Passed.toStr (some value) = .ok (textOf value) :=
  toStr_eq_ok.mpr ⟨h, rfl⟩

/-- Only integers with very many digits have no text. -/
theorem hasText_of_int {value : Value} (h : ∀ v, value = .int v → (-2147483648 ≤ v ∧ v < 2147483648)) :
    HasText value := by
  cases value with
  | int v =>
      obtain ⟨hlo, hhi⟩ := h v rfl
      have hdigits : (digitsOf v.natAbs).length ≤ maxStrDigits := by
        refine Nat.le_trans ((Nat.length_toDigits_le_iff (by decide) (by decide)).mpr ?_ : _ ≤ 10) (by decide)
        omega
      exact ⟨_, if_pos hdigits⟩
  | float x => exact ⟨_, rfl⟩
  | bool b => exact ⟨_, rfl⟩
  | str text => exact ⟨_, rfl⟩

/-! ## The table -/

section

variable {rows : List (List Value)}

theorem cellText_eq_ok {row : List Value} {i : Nat} {text : String} :
    cellText row i = .ok text ↔ ∃ value, row[i]? = some value ∧ HasText value ∧ textOf value = text := by
  rw [cellText]
  cases row[i]? with
  | none => simp
  | some value => simp [toStr_eq_ok]

/-- A column whose texts are there has one for every row. -/
theorem mem_of_mapM_cellText {i : Nat} {cells : List String} (h : rows.mapM (fun row => cellText row i) = .ok cells) :
    ∀ row ∈ rows, ∃ value, row[i]? = some value ∧ textOf value ∈ cells := by
  have hrows : ∀ {rows : List (List Value)} {cells : List String},
      List.Forall₂ (fun row text => cellText row i = .ok text) rows cells →
        ∀ row ∈ rows, ∃ value, row[i]? = some value ∧ textOf value ∈ cells := by
    intro rows cells h
    induction h with
    | nil => simp
    | @cons row text rows cells htext _ ih =>
        intro other hother
        rcases List.mem_cons.mp hother with rfl | hother
        · obtain ⟨value, hget, -, rfl⟩ := cellText_eq_ok.mp htext
          exact ⟨value, hget, List.mem_cons_self⟩
        · obtain ⟨value, hget, hmem⟩ := ih other hother
          exact ⟨value, hget, List.mem_cons_of_mem _ hmem⟩
  exact hrows (mapM_eq_ok.mp h)

/-- Every row has a value with a text for every column from number `i` on. -/
theorem columnWidths_of_le (columns : List Column) (htexts : ∀ row ∈ rows, ∀ value ∈ row, HasText value) :
    ∀ (i : Nat), (∀ row ∈ rows, i + columns.length ≤ row.length) →
      ∃ widths, columnWidths rows i columns = .ok widths ∧ FitIn widths (columns.map Column.name) ∧
        ∀ row ∈ rows, FitIn widths (((row.drop i).take columns.length).map textOf) := by
  induction columns with
  | nil => exact fun i _ => ⟨[], rfl, .nil, fun row _ => .nil⟩
  | cons col columns ih =>
      intro i hrows
      rw [List.length_cons] at hrows
      have hcell : ∀ row ∈ rows, ∃ text, cellText row i = .ok text := by
        intro row hrow
        have hle := hrows row hrow
        have hget : row[i]? = some _ := List.getElem?_eq_getElem (by omega)
        exact ⟨_, cellText_eq_ok.mpr ⟨_, hget, htexts row hrow _ (List.mem_of_getElem? hget), rfl⟩⟩
      obtain ⟨cells, hcells⟩ := exists_mapM_eq_ok.mpr hcell
      obtain ⟨widths, hwidths, hnames, hfit⟩ := ih (i + 1) fun row hrow => by have := hrows row hrow; omega
      refine ⟨widest col.name cells :: widths, ?_, .cons (header_le_widest _ _) hnames, fun row hrow => ?_⟩
      · rw [columnWidths, hcells]
        change (columnWidths rows (i + 1) columns >>= _) = _
        rw [hwidths]
        rfl
      · obtain ⟨value, hget, hmem⟩ := mem_of_mapM_cellText hcells row hrow
        obtain ⟨hi, rfl⟩ := List.getElem?_eq_some_iff.mp hget
        rw [List.drop_eq_getElem_cons hi, List.length_cons, List.take_succ_cons, List.map_cons]
        exact .cons (le_widest hmem) (hfit row hrow)

/-- The widths are there only when every row has a value for every column. -/
theorem le_of_columnWidths (columns : List Column) : ∀ (i : Nat) {widths : List Nat},
    columnWidths rows i columns = .ok widths →
      widths.length = columns.length ∧ (columns ≠ [] → ∀ row ∈ rows, i + columns.length ≤ row.length) := by
  induction columns with
  | nil =>
      intro i widths h
      obtain rfl := Except.ok.inj h
      exact ⟨rfl, fun hne => absurd rfl hne⟩
  | cons col columns ih =>
      intro i widths h
      obtain ⟨cells, hcells, h⟩ := bind_eq_ok.mp h
      obtain ⟨rest, hrest, h⟩ := bind_eq_ok.mp h
      obtain rfl := Except.ok.inj h
      obtain ⟨hlength, hle⟩ := ih (i + 1) hrest
      refine ⟨by rw [List.length_cons, List.length_cons, hlength], fun _ row hrow => ?_⟩
      obtain ⟨value, hget, -⟩ := mem_of_mapM_cellText hcells row hrow
      obtain ⟨hi, -⟩ := List.getElem?_eq_some_iff.mp hget
      rw [List.length_cons]
      by_cases hlast : columns = []
      · rw [hlast, List.length_nil]
        omega
      · have hrow := hle hlast row hrow
        omega

/-- The line of a row that is as long as the widths. -/
theorem rowLine_of_length {widths : List Nat} {row : List Value} (h : row.length = widths.length)
    (htexts : ∀ value ∈ row, HasText value) : rowLine widths row = .ok (joinCells widths (row.map textOf)) := by
  have hcells : rowCells widths row = .ok (List.zipWith cell widths (row.map textOf)) := by
    induction row generalizing widths with
    | nil =>
        rw [rowCells, List.map_nil, List.zipWith_nil_right]
        rfl
    | cons value row ih =>
        rw [List.forall_mem_cons] at htexts
        cases widths with
        | nil => exact absurd h (by simp)
        | cons width widths =>
            rw [rowCells, htexts.1.toStr_eq]
            change (rowCells widths row >>= _) = _
            rw [ih (by simpa using h) htexts.2]
            rfl
  rw [rowLine, hcells]
  rfl

theorem le_of_rowLine {widths : List Nat} {row : List Value} {line : String} (h : rowLine widths row = .ok line) :
    row.length ≤ widths.length ∧ ∀ value ∈ row, HasText value := by
  obtain ⟨cells, hcells, -⟩ := bind_eq_ok.mp h
  clear h
  induction row generalizing widths cells with
  | nil => simp
  | cons value row ih =>
      rw [rowCells] at hcells
      obtain ⟨text, htext, hcells⟩ := bind_eq_ok.mp hcells
      cases widths with
      | nil => cases hcells
      | cons width widths =>
          obtain ⟨rest, hrest, -⟩ := bind_eq_ok.mp hcells
          obtain ⟨hle, htexts⟩ := ih rest hrest
          exact ⟨Nat.succ_le_succ hle, List.forall_mem_cons.mpr ⟨⟨text, htext⟩, htexts⟩⟩

end

variable {columns : List Column} {results : List (List Value)}

/-- The rows shown have a value with a text for every column. -/
def Printable (columns : List Column) (results : List (List Value)) : Prop :=
  ∀ row ∈ results.take 15, row.length = columns.length ∧ ∀ value ∈ row, HasText value

/-- The table of rows that can be printed. -/
theorem Printable.tableLines_eq (h : Printable columns results) :
    ∃ widths, FitIn widths (columns.map Column.name) ∧ (∀ row ∈ results.take 15, FitIn widths (row.map textOf)) ∧
      tableLines columns results = .ok
        (String.ofList (List.replicate (lineWidth widths) '-') :: joinCells widths (columns.map Column.name) ::
          String.ofList (List.replicate (lineWidth widths) '-') ::
            ((results.take 15).map (fun row => joinCells widths (row.map textOf)) ++
              [String.ofList (List.replicate (lineWidth widths) '-')])) := by
  obtain ⟨widths, hwidths, hnames, htexts⟩ := columnWidths_of_le columns (fun row hrow => (h row hrow).2) 0
    fun row hrow => by rw [(h row hrow).1, Nat.zero_add]
  have hrows : ∀ row ∈ results.take 15, FitIn widths (row.map textOf) := by
    intro row hrow
    have hfits := htexts row hrow
    rwa [List.drop_zero, ← (h row hrow).1, List.take_length] at hfits
  have hlines : (results.take 15).mapM (rowLine widths) =
      .ok ((results.take 15).map fun row => joinCells widths (row.map textOf)) := by
    rw [mapM_eq_ok, List.forall₂_map_right_iff, List.forall₂_same]
    intro row hrow
    exact rowLine_of_length (by rw [(hrows row hrow).length_eq, List.length_map]) (h row hrow).2
  refine ⟨widths, hnames, hrows, ?_⟩
  rw [tableLines]
  dsimp only
  rw [hwidths]
  change ((results.take 15).mapM (rowLine widths) >>= _) = _
  rw [hlines, hnames.length_joinCells]
  rfl

/-- `format_table` raises exactly when one of the first fifteen rows has more or fewer values than
there are columns, or a value without a text. -/
theorem tableLines_ok_iff : (∃ lines, tableLines columns results = .ok lines) ↔ Printable columns results := by
  constructor
  · rintro ⟨lines, hlines⟩ row hrow
    obtain ⟨widths, hwidths, hlines⟩ := bind_eq_ok.mp hlines
    obtain ⟨shown, hshown, -⟩ := bind_eq_ok.mp hlines
    obtain ⟨hlength, hle⟩ := le_of_columnWidths columns 0 hwidths
    obtain ⟨line, hline⟩ := exists_mapM_eq_ok.mp ⟨shown, hshown⟩ row hrow
    obtain ⟨hmost, htexts⟩ := le_of_rowLine hline
    refine ⟨?_, htexts⟩
    by_cases hempty : columns = []
    · subst hempty
      exact Nat.le_zero.mp (hmost.trans hlength.le)
    · have hleast := hle hempty row hrow
      omega
  · intro h
    obtain ⟨widths, -, -, hok⟩ := h.tableLines_eq
    exact ⟨_, hok⟩

/-- Every line is of the same width, and the names of the columns and the texts of the first fifteen
rows are read again from it. -/
theorem Printable.reads (h : Printable columns results) :
    ∃ lines widths, tableLines columns results = .ok lines ∧ lines.length = min 15 results.length + 4 ∧
      (∀ line ∈ lines, line.length = lineWidth widths) ∧
      (∃ header, lines[1]? = some header ∧ Reads widths header (columns.map Column.name)) ∧
      ∀ i row, (results.take 15)[i]? = some row →
        ∃ line, lines[i + 3]? = some line ∧ Reads widths line (row.map textOf) := by
  obtain ⟨widths, hnames, hrows, hlines⟩ := h.tableLines_eq
  refine ⟨_, widths, hlines, ?_, ?_, ⟨_, rfl, hnames.reads⟩, fun i row hrow => ?_⟩
  · simp only [List.length_cons, List.length_append, List.length_map, List.length_take, List.length_nil]
  · intro line hline
    simp only [List.mem_cons, List.mem_append, List.mem_map, List.not_mem_nil, or_false] at hline
    rcases hline with rfl | rfl | rfl | ⟨row, hrow, rfl⟩ | rfl
    · rw [String.length_ofList, List.length_replicate]
    · exact hnames.length_joinCells
    · rw [String.length_ofList, List.length_replicate]
    · exact (hrows row hrow).length_joinCells
    · rw [String.length_ofList, List.length_replicate]
  · refine ⟨joinCells widths (row.map textOf), ?_, (hrows row (List.mem_of_getElem? hrow)).reads⟩
    obtain ⟨hi, -⟩ := List.getElem?_eq_some_iff.mp hrow
    rw [List.getElem?_cons_succ, List.getElem?_cons_succ, List.getElem?_cons_succ,
      List.getElem?_append_left (by rwa [List.length_map]), List.getElem?_map, hrow]
    rfl

end TableText

/-! ## The values of answers -/

open TableText

/-- A coerced row that can be encoded has texts: its integers have 32 bits. -/
theorem Schema.hasText_of_coerce {schema : Schema} {row : List Passed} {values : List Value} {raw : ByteBuffer.Bytes}
    (h : schema.coerce row = .ok values) (hraw : schema.serialize values = .ok (some raw)) :
    ∀ value ∈ values, HasText value := by
  have hdistinct := distinct_of_serialize hraw
  have hread := deserialize_of_serialize hdistinct hraw [] (0, 0)
  rw [List.append_nil, deserialize_of_coerce h hraw] at hread
  have hvalues : values = (schema.columns.zip values).map fun item => item.2.stored item.1.type :=
    congrArg Record.values (Except.ok.inj hread)
  have hfits : schema.Fits values := hvalues ▸ fits_of_serialize hraw
  have hlength : schema.columns.length = values.length := List.Forall₂.length_eq hfits
  have htypes : ∀ item ∈ schema.columns.zip values, item.2.hasType item.1.type = true :=
    fun item hitem => List.forall₂_zip hfits hitem
  have hlimits := (exists_serialize_iff hdistinct hlength.le htypes).mp ⟨raw, hraw⟩
  intro value hvalue
  have hsnd : (schema.columns.zip values).map Prod.snd = values := List.map_snd_zip hlength.ge
  rw [← hsnd] at hvalue
  obtain ⟨item, hitem, rfl⟩ := List.mem_map.mp hvalue
  refine hasText_of_int fun v hv => ?_
  have hlimit := hlimits item hitem
  rw [hv] at hlimit
  exact fits_formati.mp hlimit

/-- No integer is written in an expression. -/
def Expr.NoInt : Expr String → Prop
  | .columnRef _ => True
  | .literal value => ∀ v, value ≠ .int v
  | .comparison _ _ _ => True
  | .and left right => left.NoInt ∧ right.NoInt
  | .or left right => left.NoInt ∧ right.NoInt

/-- Numbers are planned as floats. -/
theorem LogicalPlanner.noInt_of_planExpression {tableName : Option String} {e : SqlExpr} {planned : Expr String}
    (h : planExpression tableName e = .ok planned) : planned.NoInt := by
  have hliteral : ∀ {value : Value}, (∀ v, value ≠ .int v) → (Expr.literal value : Expr String).NoInt := fun h => h
  induction e generalizing planned with
  | column table name =>
      rw [planExpression] at h
      split at h
      · exact Except.ok.inj h ▸ trivial
      · exact Except.ok.inj h ▸ trivial
  | number digits =>
      obtain ⟨x, -, h⟩ := bind_eq_ok.mp h
      exact Except.ok.inj h ▸ hliteral (by simp)
  | string characters => exact Except.ok.inj h ▸ hliteral (by simp)
  | boolean value => exact Except.ok.inj h ▸ hliteral (by simp)
  | comparison op left right ihl ihr =>
      have hplanned : ∃ l r, planned = .comparison l op r := by
        cases op with
        | neq => cases h
        | _ =>
            obtain ⟨l, -, h⟩ := bind_eq_ok.mp h
            obtain ⟨r, -, h⟩ := bind_eq_ok.mp h
            exact ⟨l, r, (Except.ok.inj h).symm⟩
      obtain ⟨l, r, rfl⟩ := hplanned
      trivial
  | and left right ihl ihr =>
      obtain ⟨l, hl, h⟩ := bind_eq_ok.mp h
      obtain ⟨r, hr, h⟩ := bind_eq_ok.mp h
      exact Except.ok.inj h ▸ ⟨ihl hl, ihr hr⟩
  | or left right ihl ihr =>
      obtain ⟨l, hl, h⟩ := bind_eq_ok.mp h
      obtain ⟨r, hr, h⟩ := bind_eq_ok.mp h
      exact Except.ok.inj h ▸ ⟨ihl hl, ihr hr⟩
  | neg operand => cases h
  | paren operand => cases h
  | arith op left right => cases h
  | other className this => cases h

theorem LogicalPlanner.noInt_of_planProjections {tableName : Option String} {items : List SelectItem}
    {projections : List (Expr String × String)} (h : planProjections tableName items = .ok (some projections)) :
    ∀ item ∈ projections, item.1.NoInt := by
  intro item hitem
  rw [planProjections] at h
  split at h
  · cases h
  · obtain ⟨planned, hplanned, h⟩ := bind_eq_ok.mp h
    obtain rfl := Option.some.inj (Except.ok.inj h)
    obtain ⟨selected, -, hselected⟩ := exists_of_forall₂ (mapM_eq_ok.mp hplanned) hitem
    cases selected with
    | star => cases hselected
    | _ =>
        obtain ⟨planned, he, h⟩ := bind_eq_ok.mp hselected
        exact Except.ok.inj h ▸ noInt_of_planExpression he

/-- What was made of a list was made of one of its items. -/
theorem exists_of_mapM_eq_some {α β : Type} {f : α → Option β} {as : List α} {bs : List β}
    (h : as.mapM f = some bs) {b : β} (hb : b ∈ bs) : ∃ a ∈ as, f a = some b := by
  induction as generalizing bs with
  | nil =>
      obtain rfl := Option.some.inj h
      simp at hb
  | cons a as ih =>
      rw [List.mapM_cons] at h
      obtain ⟨first, hfirst, h⟩ := Option.bind_eq_some_iff.mp h
      obtain ⟨rest, hrest, h⟩ := Option.bind_eq_some_iff.mp h
      obtain rfl := Option.some.inj h
      rcases List.mem_cons.mp hb with rfl | hb
      · exact ⟨a, List.mem_cons_self, hfirst⟩
      · obtain ⟨found, hfound, hvalue⟩ := ih hrest hb
        exact ⟨found, List.mem_cons_of_mem a hfound, hvalue⟩

/-- The values of an expression have texts, when those of the row have. -/
theorem Expr.hasText_of_valueIn {schema : Schema} {row : List Value} (hrow : ∀ value ∈ row, HasText value)
    {e : Expr String} (he : e.NoInt) {value : Value} (h : e.valueIn schema row = some value) : HasText value := by
  induction e generalizing value with
  | columnRef name =>
      rw [valueIn, lookup] at h
      split at h
      · exact hrow value (List.mem_of_getElem? h)
      · cases h
  | literal written =>
      obtain rfl := Option.some.inj h
      exact hasText_of_int fun v hv => absurd hv (he v)
  | comparison left op right =>
      rw [valueIn] at h
      split at h
      · split at h
        · exact Option.some.inj h ▸ hasText_of_int (by simp)
        · cases h
      · cases h
  | and left right ihl ihr =>
      rw [valueIn] at h
      split at h
      · rename_i l r hl hr
        rw [← Option.some.inj h]
        split
        · exact ihr he.2 hr
        · exact ihl he.1 hl
      · cases h
  | or left right ihl ihr =>
      rw [valueIn] at h
      split at h
      · rename_i l r hl hr
        rw [← Option.some.inj h]
        split
        · exact ihl he.1 hl
        · exact ihr he.2 hr
      · cases h

/-- The values of a plan without a projection are values of the tables. -/
theorem LogicalNode.forall_mem_rows {contents : Contents} {P : Value → Prop}
    (hP : ∀ name, ∀ row ∈ (contents name).rows, ∀ value ∈ row, P value) {node : LogicalNode} (hnode : node.Unprojected) :
    ∀ row ∈ node.rows contents, ∀ value ∈ row, P value := by
  induction node with
  | scan node => exact fun row hrow => hP _ row (List.mem_filter.mp hrow).1
  | filter child predicate ih => exact fun row hrow => ih hnode row (List.mem_filter.mp hrow).1
  | projection child projections ih => exact hnode.elim
  | join left right condition ihl ihr =>
      intro row hrow value hvalue
      obtain ⟨l, hl, hrow⟩ := List.mem_flatMap.mp hrow
      obtain ⟨r, hr, rfl⟩ := List.mem_map.mp (List.mem_filter.mp hrow).1
      rcases List.mem_append.mp hvalue with hvalue | hvalue
      · exact ihl hnode.1 l hl value hvalue
      · exact ihr hnode.2 r hr value hvalue

namespace ShownDatabase

variable {text : SqlText} {done : List (Statement × Except PyErr Answer)} {db db' : ShownDatabase}

/-- A listing in which a table that is not there has no rows. -/
theorem exists_lists (h : ∃ listed, db.Lists listed) : ∃ listed, db.Lists listed ∧
    ∀ name, ∀ row ∈ (listed name).rows, ∃ table, db name = some table ∧ ∃ r ∈ table.rows, r.values = row := by
  obtain ⟨listed, hlists⟩ := h
  refine ⟨fun name => if db name = none then ⟨⟨[]⟩, [], by simp⟩ else listed name, fun name table htable => ?_,
    fun name row hrow => ?_⟩
  · have hthere : ¬ db name = none := by simp [htable]
    simp only [if_neg hthere]
    exact hlists name table htable
  · by_cases hname : db name = none
    · simp [hname] at hrow
    · simp only [if_neg hname] at hrow
      obtain ⟨table, htable⟩ := Option.ne_none_iff_exists'.mp hname
      obtain ⟨-, hrows⟩ := hlists name table htable
      rw [← Multiset.mem_coe, hrows, Multiset.mem_map] at hrow
      exact ⟨table, htable, hrow⟩

/-- The values in the tables. -/
theorem Performed.hasText (h : Performed text done db) : ∀ tableName table, db tableName = some table →
    ∀ r ∈ table.rows, ∀ value ∈ r.values, HasText value := by
  refine h.forall_tables (by simp) (fun table hold rows hle r hr => hold r (Multiset.mem_of_le hle hr))
    (fun _ hold _ => hold) fun table hold rows added hadded r hr => ?_
  rcases Multiset.mem_add.mp hr with hr | hr
  · obtain ⟨row, -, hcoerced, raw, hraw⟩ := exists_of_forall₂ hadded (Multiset.mem_coe.mp hr)
    exact Schema.hasText_of_coerce hcoerced hraw
  · exact hold r hr

theorem Performed.exists_performs (h : Performed text done db) {item : Statement × Except PyErr Answer}
    (hitem : item ∈ done) : ∃ earlier before after, Performed text earlier before ∧ before.Performs text item.1 item.2 after := by
  induction h with
  | nil => simp at hitem
  | statement hbefore hperforms ih =>
      rcases List.mem_append.mp hitem with hitem | hitem
      · exact ih hitem
      · obtain rfl := List.mem_singleton.mp hitem
        exact ⟨_, _, _, hbefore, hperforms⟩

theorem Performed.last {text : SqlText} {done : List (Statement × Except PyErr Answer)}
    {db : ShownDatabase} {item : Statement × Except PyErr Answer} (h : Performed text (done ++ [item]) db) :
    ∃ before : ShownDatabase, Performed text done before ∧ before.Performs text item.1 item.2 db := by
  generalize hall : done ++ [item] = all at h
  cases h with
  | nil => simp at hall
  | statement hbefore hperforms =>
      obtain ⟨rfl, hitem⟩ := List.append_inj' hall rfl
      obtain rfl := List.singleton_inj.mp hitem
      exact ⟨_, hbefore, hperforms⟩

theorem Performed.eq_of_nil {text : SqlText} {db : ShownDatabase} (h : Performed text [] db) :
    db = fun _ => none := by
  generalize hall : ([] : List (Statement × Except PyErr Answer)) = all at h
  cases h with
  | nil => rfl
  | statement => simp at hall

/-- A query that is not refused is answered with rows. -/
theorem Performs.exists_rows {text : SqlText} {db db' : ShownDatabase} {node : SqlSelect}
    {result : Except PyErr Answer} (h : Performs text db (.select node) result db')
    (hraises : ¬ db.Raises text (.select node)) : ∃ rows schema, result = .ok (.rows rows schema) := by
  cases h with
  | raised e hrefused => exact absurd hrefused hraises
  | select => exact ⟨_, _, rfl⟩

/-- The rows of an answer have a value with a text for every column. -/
theorem Performed.printable (h : Performed text done db) {node : SqlSelect} {rows : List (List Value)} {schema : Schema}
    (hanswer : (Statement.select node, Except.ok (Answer.rows rows schema)) ∈ done) : Printable schema.columns rows := by
  obtain ⟨earlier, before, after, hbefore, hperforms⟩ := h.exists_performs hanswer
  dsimp only at hperforms
  cases hperforms with
  | select hplan hlisted hrows =>
      obtain ⟨listed, hlists, hmem⟩ := exists_lists hlisted
      obtain ⟨rfl, hperm⟩ := hrows listed hlists
      have htables : ∀ name, ∀ row ∈ (listed name).rows, ∀ value ∈ row, HasText value := by
        intro name row hrow
        obtain ⟨table, htable, r, hr, rfl⟩ := hmem name row hrow
        exact hbefore.hasText name table htable r hr
      intro row hrow
      have htree := hperm.mem_iff.mp (List.mem_of_mem_take hrow)
      refine ⟨LogicalNode.length_of_mem_rows htree, ?_⟩
      rcases LogicalPlanner.planSelect_shape hplan with hnode | ⟨child, projections, rfl, hnode, hprojections⟩
      · exact LogicalNode.forall_mem_rows htables hnode row htree
      · obtain ⟨childRow, hchild, hvalues⟩ := List.mem_filterMap.mp htree
        intro value hvalue
        obtain ⟨item, hitem, hvalueIn⟩ := exists_of_mapM_eq_some hvalues hvalue
        exact Expr.hasText_of_valueIn (LogicalNode.forall_mem_rows htables hnode childRow hchild)
          (LogicalPlanner.noInt_of_planProjections hprojections item hitem) hvalueIn

end ShownDatabase

/-! ## Answers at the prompt -/

namespace CatalogSession

variable {order : SetOrder} {text : SqlText} {s : CatalogSession} {done : List (Statement × Except PyErr Answer)}

/-- `SELECT * FROM t`. -/
def selectNotes : SqlSelect := { fromTable := ⟨"t", ""⟩ }

/-- The plan of the query. -/
theorem plan_selectNotes : LogicalPlanner.planSelect selectNotes = .ok (.scan { tableName := "t" }) := rfl

/-- What the database of the run shows. -/
theorem performed_createNotes {result : Except PyErr Answer} {db : ShownDatabase}
    (h : ShownDatabase.Performed standardText [(createNotes, result)] db) :
    db = Function.update (fun _ => none) "t" (some ⟨⟨[⟨"k", .int, none⟩]⟩, [], 0⟩) := by
  have hfirst : ShownDatabase.Performed standardText ([] ++ [(createNotes, result)]) db := h
  obtain ⟨before, hbefore, hperforms⟩ := hfirst.last
  obtain rfl := hbefore.eq_of_nil
  rw [createNotes] at hperforms
  cases hperforms with
  | raised e hraises =>
      rcases hraises with ⟨e, he⟩ | hnew
      · exact nomatch he
      · exact absurd rfl hnew
  | createTable hplan hnew =>
      obtain rfl := Except.ok.inj hplan
      rfl

/-- The query is answered. -/
theorem executed_selectNotes : ∃ rows schema,
    Executed .increasing standardText
      ([(createNotes, (prompted.command .increasing standardText createNotes).1)] ++
        [(.select selectNotes, .ok (.rows rows schema))])
      (promptedAgain.command .increasing standardText (.select selectNotes)).2 := by
  obtain ⟨w, contents, forests, h, hclean, hperformed⟩ := executed_prompted.stored
  have hshown := performed_createNotes hperformed
  have hconsidered : (StoredCatalog.shown promptedAgain.catalog.tables contents).Considers (.select selectNotes) := by
    intro tree hplan
    obtain rfl := Except.ok.inj (plan_selectNotes.symm.trans hplan)
    refine ⟨by decide, fun tableName hname => ?_, fun listed _ => ⟨rfl, rfl⟩⟩
    obtain rfl := List.mem_singleton.mp hname
    exact ⟨by decide, _, by rw [hshown, Function.update_self], rfl⟩
  have hadds : ¬ (Statement.select selectNotes).Adds := id
  have hs := executed_prompted.command (.select selectNotes) (h.shows_iff.mpr rfl) hconsidered
    fun hyes => absurd hyes hadds
  obtain ⟨w', contents', forests', -, -, hperforms⟩ :=
    (h.executes hperformed.unlimited hconsidered fun hyes => absurd hyes hadds).command hclean
  have hraises : ¬ (StoredCatalog.shown promptedAgain.catalog.tables contents).Raises standardText (.select selectNotes) := by
    rintro ⟨e, he⟩
    exact nomatch plan_selectNotes.symm.trans he
  obtain ⟨rows, schema, hanswer⟩ := hperforms.exists_rows hraises
  exact ⟨rows, schema, hanswer ▸ hs⟩

end CatalogSession

end DBEngine
