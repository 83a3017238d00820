import PolicyDialects.Cel.ToFilter

/-!
# Evaluation of comparisons with Booleans

What CEL makes of a comparison whose left side is a Boolean attribute, or the
negation of one. It is defined only where the comparison has a value.

* `Relation.outcome?` — a Boolean compared with a constant; `false` is less than
  `true`, and `in` asks for a member of a list.
* `Tree.boolean?` — the Boolean that an expression evaluates to.
-/

namespace PolicyDialects.Cel

open PolicyDialects.Filter (Value)

/-- How values of different types are compared for equality. -/
inductive Typing where
  /-- Types are checked first, and such a comparison has no value. -/
  | checked
  /-- They are unequal. -/
  | dynamic
  deriving DecidableEq

/-- The value of a relation between a Boolean and a constant, if it has one. -/
def Relation.outcome? (typing : Typing) (op : Relation) (b : Bool) (v : Value) : Option Bool :=
  match op, v with
  | .equals, .boolean c => some (b == c)
  | .notEquals, .boolean c => some (b != c)
  | .less, .boolean c => some (decide (b < c))
  | .lessEquals, .boolean c => some (decide (b ≤ c))
  | .greater, .boolean c => some (decide (c < b))
  | .greaterEquals, .boolean c => some (decide (c ≤ b))
  | .in, .list items => some (decide (.boolean b ∈ items))
  | .equals, _ => if typing = .dynamic then some false else none
  | .notEquals, _ => if typing = .dynamic then some true else none
  | _, _ => none

/-- The Boolean that an expression evaluates to when attributes have the Booleans
`values`. -/
def Tree.boolean? (typing : Typing) (values : String → Option Bool) : Tree → Option Bool
  | .unary .not e => (e.boolean? typing values).map (!·)
  | .relation op left right => do
    let b ← left.boolean? typing values
    let v ← right.constantValue.toOption
    op.outcome? typing b v
  | e => do values (← e.selectPath.toOption)

end PolicyDialects.Cel
