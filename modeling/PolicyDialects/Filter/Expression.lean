import PolicyDialects.Filter.Value

/-!
# Filter expressions

Conditions in the filter language of SCIM (RFC 7644, section 3.4.2.2).

* `CompareOperator`, `LogicalOperator` — the operators and their keywords.
* `Comparison` — one comparison of an attribute with a value.
* `Expression` — comparisons joined by `and`, `or`, `not`, parentheses kept as
  their author wrote them, and filters on the values of an attribute.
* `Expression.depth` — nodes on the longest path from the root to a leaf.
* `Expression.deepestLevel` — the same, found by a walk that needs no recursion
  on the expression (`deepestLevel_eq_depth`), so that depth can be bounded in
  expressions that are too deep to recur on.
* `Expression.text` — the canonical spelling.
-/

namespace PolicyDialects.Filter

open Text

/-! ## Operators -/

/-- Comparison operators. Model of `CompareOperator`. -/
inductive CompareOperator where
  | pr | eq | ne | co | sw | ew | gt | lt | ge | le | in
  deriving DecidableEq, Inhabited

namespace CompareOperator

/-- All comparison operators. -/
def all : List CompareOperator := [.pr, .eq, .ne, .co, .sw, .ew, .gt, .lt, .ge, .le, .in]

/-- The keyword of an operator. -/
def keyword : CompareOperator → String
  | .pr => "pr"
  | .eq => "eq"
  | .ne => "ne"
  | .co => "co"
  | .sw => "sw"
  | .ew => "ew"
  | .gt => "gt"
  | .lt => "lt"
  | .ge => "ge"
  | .le => "le"
  | .in => "in"

/-- The operator of a keyword in any case. -/
def ofKeyword? (word : String) : Option CompareOperator :=
  all.find? fun op => sameFold word op.keyword

end CompareOperator

/-- Logical operators. Model of `LogicalOperator`. -/
inductive LogicalOperator where
  | and | or
  deriving DecidableEq, Inhabited

namespace LogicalOperator

/-- The keyword of an operator. -/
def keyword : LogicalOperator → String
  | .and => "and"
  | .or => "or"

/-- The operator of a keyword in any case. -/
def ofKeyword? (word : String) : Option LogicalOperator :=
  [LogicalOperator.and, .or].find? fun op => sameFold word op.keyword

end LogicalOperator

/-! ## Expressions -/

/-- `path operator value`, or `path pr` without a value. Model of
`AttributeExpression`. -/
structure Comparison where
  path : String
  operator : CompareOperator
  value : Option Value
  deriving DecidableEq, Inhabited

/-- A filter. Model of `Expression`. -/
inductive Expression where
  | compare (c : Comparison)
  | logical (op : LogicalOperator) (left right : Expression)
  | not (inner : Expression)
  /-- Parentheses that the author wrote. -/
  | group (inner : Expression)
  /-- `path[filter]`, where the names in `filter` are relative to `path`. -/
  | valuePath (path : String) (filter : Expression)
  deriving DecidableEq, Inhabited

/-- The comparison with a value. Model of `AttributeExpression.new`. -/
def Comparison.with (path : String) (operator : CompareOperator) (value : Value) : Comparison :=
  ⟨path, operator, some value⟩

/-- The comparison that asks whether an attribute is present. Model of
`AttributeExpression.present`. -/
def Comparison.present (path : String) : Comparison := ⟨path, .pr, none⟩

/-- The spelling of a comparison. Model of `AttributeExpression.fmt`. -/
def Comparison.text (c : Comparison) : String :=
  match c.value with
  | some value =>
    if c.operator = .pr then c.path ++ " pr"
    else c.path ++ " " ++ c.operator.keyword ++ " " ++ value.text
  | none => c.path ++ " pr"

namespace Expression

/-- The deepest expression that is read or exported. The constant
`MAX_DEPTH`. -/
def maxDepth : Nat := 512

/-- Joins two expressions by `and`. Model of `Expression.and`. -/
def and (left right : Expression) : Expression := .logical .and left right

/-- Joins two expressions by `or`. Model of `Expression.or`. -/
def or (left right : Expression) : Expression := .logical .or left right

/-- Whether the expression is joined by `and` or `or` at its root. Model of
`Expression.is_logical`. -/
def isLogical : Expression → Bool
  | .logical _ _ _ => true
  | _ => false

/-- Whether the expression is an `or` at its root. Model of `is_or`. -/
def isOr : Expression → Bool
  | .logical .or _ _ => true
  | _ => false

/-- The number of nodes on the longest path from the root to a leaf. -/
def depth : Expression → Nat
  | .compare _ => 1
  | .logical _ left right => max left.depth right.depth + 1
  | .not inner => inner.depth + 1
  | .group inner => inner.depth + 1
  | .valuePath _ filter => filter.depth + 1

/-- The larger of `deepest` and the deepest level in the pending expressions,
each of which stands with the level of its root. The expression that was put off
last comes first. The loop of `Expression.depth`. -/
def deepestFrom (deepest : Nat) : (pending : List (Expression × Nat)) → Nat
  | [] => deepest
  | (.compare _, level) :: pending => deepestFrom (max deepest level) pending
  | (.logical _ left right, level) :: pending =>
    deepestFrom (max deepest level) ((right, level + 1) :: (left, level + 1) :: pending)
  | (.not inner, level) :: pending =>
    deepestFrom (max deepest level) ((inner, level + 1) :: pending)
  | (.group inner, level) :: pending =>
    deepestFrom (max deepest level) ((inner, level + 1) :: pending)
  | (.valuePath _ filter, level) :: pending =>
    deepestFrom (max deepest level) ((filter, level + 1) :: pending)
termination_by pending => pending.foldr (fun p size => sizeOf p.1 + size) 0
decreasing_by
  all_goals
    simp only [List.foldr_cons, compare.sizeOf_spec, logical.sizeOf_spec,
      not.sizeOf_spec, group.sizeOf_spec, valuePath.sizeOf_spec]
    omega

/-- The deepest level of an expression whose root is at level one. Model of
`Expression.depth`. -/
def deepestLevel (e : Expression) : Nat := deepestFrom 0 [(e, 1)]

/-- A pending expression counts with its depth, whatever is pending behind it. -/
theorem deepestFrom_cons (e : Expression) (deepest level : Nat)
    (pending : List (Expression × Nat)) :
    deepestFrom deepest ((e, level + 1) :: pending) =
      deepestFrom (max deepest (level + e.depth)) pending := by
  induction e generalizing deepest level pending with
  | compare c => rw [deepestFrom, depth]
  | logical op left right ihl ihr =>
    have hmax : max (max (max deepest (level + 1)) (level + 1 + right.depth))
        (level + 1 + left.depth) = max deepest (level + (max left.depth right.depth + 1)) := by
      omega
    rw [deepestFrom, ihr, ihl, hmax, depth]
  | not inner ih | group inner ih | valuePath _ inner ih =>
    have hmax : max (max deepest (level + 1)) (level + 1 + inner.depth) =
        max deepest (level + (inner.depth + 1)) := by
      omega
    rw [deepestFrom, ih, hmax, depth]

@[simp] theorem deepestLevel_eq_depth (e : Expression) : e.deepestLevel = e.depth := by
  rw [deepestLevel, deepestFrom_cons e 0 0, deepestFrom, Nat.zero_max, Nat.zero_add]

/-- The expression without one pair of parentheses around it. Model of
`Expression.unparenthesized`. -/
def unparenthesized : Expression → Expression
  | .group inner => inner
  | e => e

/-! ## Spelling -/

/-- The canonical spelling. The operand of `not` is always in parentheses, which
one pair of the author's own stands for. Model of `Expression.fmt`. -/
def text : Expression → String
  | .compare c => c.text
  | .logical op left right => left.text ++ " " ++ op.keyword ++ " " ++ right.text
  | .not (.group inner) =>
    if inner.isLogical then "not (" ++ inner.text ++ ")" else "not(" ++ inner.text ++ ")"
  | .not inner =>
    if inner.isLogical then "not (" ++ inner.text ++ ")" else "not(" ++ inner.text ++ ")"
  | .group inner => "(" ++ inner.text ++ ")"
  | .valuePath path filter => path ++ "[" ++ filter.text ++ "]"

/-! ## Comparisons and truth -/

/-- The comparisons of an expression, from left to right. -/
def comparisons : Expression → List Comparison
  | .compare c => [c]
  | .logical _ left right => left.comparisons ++ right.comparisons
  | .not inner => inner.comparisons
  | .group inner => inner.comparisons
  | .valuePath _ filter => filter.comparisons

/-- The truth of an expression when each comparison, under the paths of the
value filters around it, has the truth that `truth` gives. -/
def holds (truth : List String → Comparison → Bool) : Expression → Bool
  | .compare c => truth [] c
  | .logical .and left right => left.holds truth && right.holds truth
  | .logical .or left right => left.holds truth || right.holds truth
  | .not inner => !inner.holds truth
  | .group inner => inner.holds truth
  | .valuePath path filter => filter.holds fun paths => truth (path :: paths)

end Expression

end PolicyDialects.Filter
