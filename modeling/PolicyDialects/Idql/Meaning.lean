import PolicyDialects.Filter.Parser
import PolicyDialects.Idql.Policy

/-!
# The meaning of IDQL conditions

* `Condition.value?` — whether a condition lets a request through, given the
  truth of the comparisons in its rule.
-/

namespace PolicyDialects.Idql

open PolicyDialects.Filter (Comparison Expression)

/-- Whether a condition lets a request through: `allow` when its rule is true,
`deny` when it is false. A rule that is no filter decides nothing. -/
def Condition.value? (truth : List String → Comparison → Bool) (c : Condition) : Option Bool :=
  match Expression.parse c.rule with
  | .error _ => none
  | .ok rule =>
    match c.action with
    | .allow => some (rule.holds truth)
    | .deny => some (!rule.holds truth)

end PolicyDialects.Idql
