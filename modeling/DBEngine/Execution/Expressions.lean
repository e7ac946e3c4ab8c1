import DBEngine.Catalog.Schema

/-!
# Expressions

Predicates and select lists.  A column reference is a name until the expression
is bound to a schema, and a position afterwards.  `And` and `Or` evaluate both
sides and return one of the two values, as Python's `and` and `or` do.
-/

set_option autoImplicit false

namespace DBEngine

inductive ComparisonOp where
  | eq
  | neq
  | lt
  | lte
  | gt
  | gte
  deriving DecidableEq, Repr

/-- The operator with its sides exchanged. -/
def ComparisonOp.mirror : ComparisonOp → ComparisonOp
  | .eq => .eq
  | .neq => .neq
  | .lt => .gt
  | .lte => .gte
  | .gt => .lt
  | .gte => .lte

/-- `l op r`. -/
def ComparisonOp.apply (op : ComparisonOp) (l r : Value) : Except PyErr Bool :=
  match op with
  | .eq => .ok (l.eq r)
  | .neq => .ok !(l.eq r)
  | .lt => l.lt r
  | .lte => l.le r
  | .gt => l.gt r
  | .gte => l.ge r

/-- An expression whose column references are of type `ρ`. -/
inductive Expr (ρ : Type) where
  | columnRef (column : ρ)
  | literal (value : Value)
  | comparison (left : Expr ρ) (op : ComparisonOp) (right : Expr ρ)
  | and (left right : Expr ρ)
  | or (left right : Expr ρ)
  deriving DecidableEq

namespace Expr

variable {ρ : Type}

/-- `bind`. -/
def bind (schema : Schema) : Expr String → Except PyErr (Expr Nat)
  | columnRef name => do
      let i ← schema.getIndex name
      pure (columnRef i)
  | literal value => pure (literal value)
  | comparison left op right => do
      let left ← left.bind schema
      let right ← right.bind schema
      pure (comparison left op right)
  | and left right => do
      let left ← left.bind schema
      let right ← right.bind schema
      pure (and left right)
  | or left right => do
      let left ← left.bind schema
      let right ← right.bind schema
      pure (or left right)

/-- `evaluate` of a bound expression. -/
def evaluate (row : List Value) : Expr Nat → Except PyErr Value
  | columnRef i => Schema.valueAt row i
  | literal value => pure value
  | comparison left op right => do
      let l ← left.evaluate row
      let r ← right.evaluate row
      let b ← op.apply l r
      pure (.bool b)
  | and left right => do
      let l ← left.evaluate row
      let r ← right.evaluate row
      pure (if l.truthy then r else l)
  | or left right => do
      let l ← left.evaluate row
      let r ← right.evaluate row
      pure (if l.truthy then l else r)

/-- `split_conjuncts`. -/
def splitConjuncts : Expr ρ → List (Expr ρ)
  | and left right => left.splitConjuncts ++ right.splitConjuncts
  | e => [e]

/-- `combine_conjuncts`. -/
def combineConjuncts : List (Expr ρ) → Option (Expr ρ)
  | [] => none
  | e :: rest => some (rest.foldl and e)

/-- What holds of a conjunction when it holds of both sides holds of an expression
when it holds of its conjuncts. -/
theorem eq_all_splitConjuncts {p : Expr ρ → Bool} (hand : ∀ l r, p (and l r) = (p l && p r))
    (e : Expr ρ) : p e = e.splitConjuncts.all p := by
  induction e with
  | and left right ihl ihr => rw [hand, splitConjuncts, List.all_append, ihl, ihr]
  | columnRef _ => simp [splitConjuncts]
  | literal _ => simp [splitConjuncts]
  | comparison _ _ _ => simp [splitConjuncts]
  | or _ _ => simp [splitConjuncts]

theorem foldl_and_eq_all {p : Expr ρ → Bool} (hand : ∀ l r, p (and l r) = (p l && p r))
    (e : Expr ρ) (rest : List (Expr ρ)) : p (rest.foldl and e) = (p e && rest.all p) := by
  induction rest generalizing e with
  | nil => simp
  | cons c rest ih => rw [List.foldl_cons, ih, hand, List.all_cons, Bool.and_assoc]

/-- The same of what `combine_conjuncts` makes of a list. -/
theorem combineConjuncts_eq_all {p : Expr ρ → Bool} (hand : ∀ l r, p (and l r) = (p l && p r))
    (conjuncts : List (Expr ρ)) : (combineConjuncts conjuncts).all p = conjuncts.all p := by
  cases conjuncts with
  | nil => rfl
  | cons e rest => exact foldl_and_eq_all hand e rest

/-- `predicate is None or predicate.evaluate(values, schema)`, as a truth value. -/
def accepts (predicate : Option (Expr Nat)) (row : List Value) : Except PyErr Bool :=
  match predicate with
  | none => .ok true
  | some e => do
      let v ← e.evaluate row
      pure v.truthy

end Expr

end DBEngine
