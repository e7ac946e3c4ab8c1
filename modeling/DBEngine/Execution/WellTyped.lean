import DBEngine.Execution.RowTypes

/-!
# Expressions that never raise

The engine checks nothing of an expression before it runs it: a name that no column has and
a text that is ordered against a number raise in the middle of a query.  An expression whose
names resolve, and which orders only values of one kind, evaluates on every row that fits the
schema.
-/

set_option autoImplicit false

namespace DBEngine

/-! ## Kinds -/

/-- The values that can be ordered among each other. -/
inductive Kind where
  | number
  | text
  deriving DecidableEq

def Value.kind : Value → Kind
  | .str _ => .text
  | _ => .number

def DataType.kind : DataType → Kind
  | .varchar => .text
  | _ => .number

theorem Value.kind_of_hasType {value : Value} {type : DataType} (h : value.hasType type = true) :
    value.kind = type.kind := by
  cases value <;> cases type <;> first | rfl | simp [hasType] at h

/-- The comparisons of an order. -/
def ComparisonOp.orders : ComparisonOp → Bool
  | .eq => false
  | .neq => false
  | _ => true

/-- Two values of one kind are ordered. -/
theorem Value.compareWith_of_kind {op : String} {numbers : Binary64.Extended → Binary64.Extended → Bool}
    {texts : String → String → Bool} {a b : Value} (h : a.kind = b.kind) :
    ∃ result, compareWith op numbers texts a b = .ok result := by
  have hkey : ∀ v : Value, (∃ s, v.key = .text s) ↔ v.kind = .text := by
    intro v
    cases v with
    | str s => exact iff_of_true ⟨s, rfl⟩ rfl
    | int n => simp [key, kind]
    | bool b => simp [key, kind]
    | float x =>
        simp only [key, kind]
        cases Binary64.value x <;> simp
  unfold compareWith
  cases ha : a.key with
  | text s =>
      obtain ⟨t, ht⟩ := (hkey b).mpr (h ▸ (hkey a).mp ⟨s, ha⟩)
      exact ⟨texts s t, by rw [ht]⟩
  | number x =>
      cases hb : b.key with
      | text t =>
          obtain ⟨s, hs⟩ := (hkey a).mpr (h ▸ (hkey b).mp ⟨t, hb⟩)
          simp [ha] at hs
      | number y => exact ⟨numbers x y, rfl⟩
      | nan => exact ⟨false, rfl⟩
  | nan =>
      cases hb : b.key with
      | text t =>
          obtain ⟨s, hs⟩ := (hkey a).mpr (h ▸ (hkey b).mp ⟨t, hb⟩)
          simp [ha] at hs
      | number y => exact ⟨false, rfl⟩
      | nan => exact ⟨false, rfl⟩

/-- A comparison returns unless it orders a text and a number. -/
theorem ComparisonOp.apply_of_kind {op : ComparisonOp} {a b : Value}
    (h : op.orders = true → a.kind = b.kind) : ∃ result, op.apply a b = .ok result := by
  cases op with
  | eq => exact ⟨_, rfl⟩
  | neq => exact ⟨_, rfl⟩
  | lt => exact Value.compareWith_of_kind (h rfl)
  | lte => exact Value.compareWith_of_kind (h rfl)
  | gt => exact Value.compareWith_of_kind (h rfl)
  | gte => exact Value.compareWith_of_kind (h rfl)

/-! ## Well-typed expressions -/

namespace Expr

variable {schema : Schema} {row : List Value}

/-- The kind of the values of an expression, where it is the same on every row. -/
def kind? (schema : Schema) : Expr String → Option Kind
  | columnRef name => (schema.typeOf name).map DataType.kind
  | literal value => some value.kind
  | comparison _ _ _ => some .number
  | and left right => if left.kind? schema = right.kind? schema then left.kind? schema else none
  | or left right => if left.kind? schema = right.kind? schema then left.kind? schema else none

/-- Every name is that of a column, and an order compares values of one kind. -/
def wellTyped (schema : Schema) : Expr String → Bool
  | columnRef name => (schema.typeOf name).isSome
  | literal _ => true
  | comparison left op right => left.wellTyped schema && right.wellTyped schema &&
      (!op.orders || (left.kind? schema).isSome && left.kind? schema = right.kind? schema)
  | and left right => left.wellTyped schema && right.wellTyped schema
  | or left right => left.wellTyped schema && right.wellTyped schema

/-- A well-typed expression has a value on every row that fits, and one of its kind. -/
theorem valueIn_of_wellTyped {e : Expr String} (h : e.wellTyped schema = true) (hfits : schema.Fits row) :
    ∃ value, e.valueIn schema row = some value ∧ ∀ kind, e.kind? schema = some kind → value.kind = kind := by
  induction e with
  | columnRef name =>
      obtain ⟨type, htype⟩ := Option.isSome_iff_exists.mp h
      have hlookup : ∃ value, lookup schema row name = some value := by
        unfold Schema.typeOf at htype
        unfold lookup
        cases hname : schema.columnNames.get? name with
        | none => simp [hname] at htype
        | some i =>
            obtain ⟨column, hcolumn, -⟩ := Schema.getElem?_of_columnNames hname
            have hlength := List.Forall₂.length_eq hfits
            have hi := (List.getElem?_eq_some_iff.mp hcolumn).1
            exact ⟨row.get ⟨i, hlength ▸ hi⟩, List.getElem?_eq_getElem _⟩
      obtain ⟨value, hvalue⟩ := hlookup
      obtain ⟨type', htype', hhas⟩ := hfits.hasType_lookup hvalue
      refine ⟨value, hvalue, fun kind hkind => ?_⟩
      rw [kind?, htype', Option.map_some, Option.some.injEq] at hkind
      rw [Value.kind_of_hasType hhas, hkind]
  | literal value => exact ⟨value, rfl, fun kind hkind => Option.some.inj hkind⟩
  | comparison left op right ihl ihr =>
      simp only [wellTyped, Bool.and_eq_true, Bool.or_eq_true, Bool.not_eq_true', decide_eq_true_eq] at h
      obtain ⟨⟨hl, hr⟩, horders⟩ := h
      obtain ⟨l, hvl, hkl⟩ := ihl hl
      obtain ⟨r, hvr, hkr⟩ := ihr hr
      have hkinds : op.orders = true → l.kind = r.kind := by
        intro hop
        obtain ⟨hsome, hsame⟩ := horders.resolve_left (by simp [hop])
        obtain ⟨kind, hkind⟩ := Option.isSome_iff_exists.mp hsome
        rw [hkl kind hkind, hkr kind (hsame ▸ hkind)]
      obtain ⟨result, hresult⟩ := ComparisonOp.apply_of_kind hkinds
      refine ⟨.bool result, by simp only [valueIn, hvl, hvr, hresult], fun kind hkind => ?_⟩
      exact Option.some.inj hkind
  | and left right ihl ihr =>
      simp only [wellTyped, Bool.and_eq_true] at h
      obtain ⟨l, hvl, hkl⟩ := ihl h.1
      obtain ⟨r, hvr, hkr⟩ := ihr h.2
      refine ⟨if l.truthy then r else l, by simp only [valueIn, hvl, hvr], fun kind hkind => ?_⟩
      rw [kind?] at hkind
      split at hkind
      · rename_i hsame
        split
        · exact hkr kind (hsame ▸ hkind)
        · exact hkl kind hkind
      · simp at hkind
  | or left right ihl ihr =>
      simp only [wellTyped, Bool.and_eq_true] at h
      obtain ⟨l, hvl, hkl⟩ := ihl h.1
      obtain ⟨r, hvr, hkr⟩ := ihr h.2
      refine ⟨if l.truthy then l else r, by simp only [valueIn, hvl, hvr], fun kind hkind => ?_⟩
      rw [kind?] at hkind
      split at hkind
      · rename_i hsame
        split
        · exact hkl kind hkind
        · exact hkr kind (hsame ▸ hkind)
      · simp at hkind

theorem definedOn_of_wellTyped {e : Expr String} (h : e.wellTyped schema = true)
    (hfits : schema.Fits row) : e.definedOn schema row = true := by
  obtain ⟨value, hvalue, -⟩ := valueIn_of_wellTyped h hfits
  rw [definedOn, hvalue]
  rfl

/-- A well-typed expression can be bound. -/
theorem exists_bind_of_wellTyped {e : Expr String} (h : e.wellTyped schema = true) :
    ∃ bound, e.bind schema = .ok bound := by
  induction e with
  | columnRef name =>
      have hindex : ∃ i, schema.getIndex name = .ok i := by
        simp only [wellTyped, Schema.typeOf] at h
        cases hname : schema.columnNames.get? name with
        | none => simp [hname] at h
        | some i => exact ⟨i, Schema.getIndex_eq_ok.mpr hname⟩
      obtain ⟨i, hi⟩ := hindex
      exact ⟨.columnRef i, by rw [bind, hi]; rfl⟩
  | literal value => exact ⟨.literal value, rfl⟩
  | comparison left op right ihl ihr =>
      simp only [wellTyped, Bool.and_eq_true] at h
      obtain ⟨l, hl⟩ := ihl h.1.1
      obtain ⟨r, hr⟩ := ihr h.1.2
      exact ⟨.comparison l op r, by rw [bind, hl, hr]; rfl⟩
  | and left right ihl ihr =>
      simp only [wellTyped, Bool.and_eq_true] at h
      obtain ⟨l, hl⟩ := ihl h.1
      obtain ⟨r, hr⟩ := ihr h.2
      exact ⟨.and l r, by rw [bind, hl, hr]; rfl⟩
  | or left right ihl ihr =>
      simp only [wellTyped, Bool.and_eq_true] at h
      obtain ⟨l, hl⟩ := ihl h.1
      obtain ⟨r, hr⟩ := ihr h.2
      exact ⟨.or l r, by rw [bind, hl, hr]; rfl⟩

theorem binds_of_wellTyped {e : Expr String} (h : e.wellTyped schema = true) : e.binds schema = true := by
  obtain ⟨bound, hbound⟩ := exists_bind_of_wellTyped h
  rw [binds, hbound]

/-- A well-typed expression is bound, and then evaluates on every row that fits the schema, to
a value of its kind. -/
theorem wellTyped_runs (e : Expr String) (h : e.wellTyped schema = true) :
    ∃ bound, e.bind schema = .ok bound ∧ ∀ row, schema.Fits row → ∃ value,
      bound.evaluate row = .ok value ∧ ∀ kind, e.kind? schema = some kind → value.kind = kind := by
  obtain ⟨bound, hbound⟩ := exists_bind_of_wellTyped h
  refine ⟨bound, hbound, fun row hfits => ?_⟩
  obtain ⟨value, hvalue, hkind⟩ := valueIn_of_wellTyped h hfits
  rw [valueIn_eq, hbound] at hvalue
  refine ⟨value, ?_, hkind⟩
  change (bound.evaluate row).toOption = some value at hvalue
  cases heval : bound.evaluate row with
  | error e => simp [heval, Except.toOption] at hvalue
  | ok v =>
      rw [heval] at hvalue
      rw [Option.some.inj hvalue]

/-- `k > 5 AND name = 'x'` on an `INT` and a `VARCHAR` column -/
theorem wellTyped_runs_two : ∃ bound,
    (and (comparison (columnRef "k") .gt (literal (.int 5))) (comparison (columnRef "name") .eq
      (literal (.str "x")))).bind ⟨[⟨"k", .int, none⟩, ⟨"name", .varchar, none⟩]⟩ = .ok bound :=
  (wellTyped_runs _ (by decide)).imp fun _ h => h.1

end Expr

end DBEngine
