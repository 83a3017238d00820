import PolicyDialects.Cel.ToFilter
import PolicyDialects.Filter.Parser
import PolicyDialects.Filter.ToCel

/-!
# Conditions as text

A condition is a filter in IDQL and a CEL expression at a provider; both are
exchanged as text.

* `celOfFilter` — filter text to CEL text.
* `filterOfCel` — CEL text to a filter, and `filterTextOfCel`, its canonical
  spelling.
-/

namespace PolicyDialects.Condition

open PolicyDialects.Filter (Expression)

/-- The CEL text of a filter text. Model of `CelMapper.filter_to_cel`. -/
def celOfFilter (names : NameMap) (filter : String) : Except PolicyError String := do
  (← Expression.parse filter).toCel names

/-- The filter of a CEL text. Model of `CelMapper.from_cel`. -/
def filterOfCel (names : NameMap) (cel : String) : Except PolicyError Expression := do
  (← Cel.Tree.parse cel).toFilter names

/-- The canonical filter text of a CEL text. Model of
`CelMapper.cel_to_filter`. -/
def filterTextOfCel (names : NameMap) (cel : String) : Except PolicyError String := do
  return (← filterOfCel names cel).text

end PolicyDialects.Condition
