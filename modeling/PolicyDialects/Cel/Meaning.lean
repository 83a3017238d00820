import PolicyDialects.Cel.ToFilter

/-!
# The meaning of CEL conditions

A condition combines comparisons of attributes with constants by `&&`, `||`
and `!`. Given the truth of its comparisons it is true or false; an expression
of any other shape is no condition and has no truth.

* `Tree.comparison?` — the comparison that a relation or a call makes.
* `Tree.truth?` — the truth of a condition. `!p == v` is the negation of
  `p == v`.
* `Tree.levels` — how deeply a condition nests its operators.
-/

namespace PolicyDialects.Cel

open PolicyDialects.Filter (Comparison)

namespace Tree

/-- The comparison that a relation or a call makes, its attribute named as in
the text. -/
def comparison? : Tree → Option Comparison
  | .relation op left right => do
    let path ← left.selectPath.toOption
    let value ← right.constantValue.toOption
    return .with path (relationOperator op) value
  | .call name [arg] => do
    if name = "has" then return .present (← arg.selectPath.toOption) else none
  | .methodCall receiver name [arg] => do
    let op ← methodOperator? name
    let path ← receiver.selectPath.toOption
    let value ← arg.constantValue.toOption
    return .with path op value
  | _ => none

/-- The truth of a condition whose comparisons have the truth `truth`. -/
def truth? (truth : Comparison → Bool) : Tree → Option Bool
  | .and left right => do
    let a ← left.truth? truth
    let b ← right.truth? truth
    return a && b
  | .or left right => do
    let a ← left.truth? truth
    let b ← right.truth? truth
    return a || b
  | .unary .not inner => (inner.truth? truth).map (!·)
  | .unary .doubleNot inner => inner.truth? truth
  | .relation op (.unary .not left) right =>
    (comparison? (.relation op left right)).map fun c => !truth c
  | e => (comparison? e).map truth

/-- The number of operators on the longest way into a condition, and one. -/
def levels : Tree → Nat
  | .and left right => max left.levels right.levels + 1
  | .or left right => max left.levels right.levels + 1
  | .unary .not inner => inner.levels + 1
  | .unary .doubleNot inner => inner.levels + 1
  | _ => 1

end Tree

end PolicyDialects.Cel
