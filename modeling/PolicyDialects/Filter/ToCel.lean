import PolicyDialects.Filter.Expression
import PolicyDialects.Names

/-!
# Filters as CEL

The CEL text of a filter, its attributes under their provider names
(specification, section 4.2). Strings, numbers, Booleans and lists are spelled
alike in both languages.

* `Comparison.toCel` — one comparison: `has(p)`, a relation, or a call.
* `Expression.toCel` — a filter of depth at most `Expression.maxDepth`. An `or`
  below an `and` gets parentheses; the operand of `not` gets them unless it
  reads as one operand of `!`.
-/

namespace PolicyDialects.Filter

/-- The relation between an attribute and a value, or the method that is
called on the attribute. -/
inductive CelForm where
  | presence
  | relation (symbol : String)
  | method (name : String)
  deriving DecidableEq

/-- How CEL writes a comparison operator. -/
def CompareOperator.celForm : CompareOperator → CelForm
  | .pr => .presence
  | .eq => .relation "=="
  | .ne => .relation "!="
  | .gt => .relation ">"
  | .ge => .relation ">="
  | .lt => .relation "<"
  | .le => .relation "<="
  | .in => .relation "in"
  | .sw => .method "startsWith"
  | .ew => .method "endsWith"
  | .co => .method "contains"

/-- Whether CEL writes the operator as a call, which `!` may stand before. Model
of `is_function_style`. -/
def CompareOperator.isCall (op : CompareOperator) : Bool :=
  match op.celForm with
  | .relation _ => false
  | _ => true

/-- The CEL text of a comparison. Model of `emit_attribute`. -/
def Comparison.toCel (names : NameMap) (c : Comparison) : Except PolicyError String := do
  let path ← names.resolveProvider c.path
  match c.operator.celForm, c.value with
  | .presence, _ => return "has(" ++ path ++ ")"
  | .relation symbol, some value => return path ++ " " ++ symbol ++ " " ++ value.text
  | .method name, some value => return path ++ "." ++ name ++ "(" ++ value.text ++ ")"
  | _, none =>
    throw (.unsupportedShape
      ("operator '" ++ c.operator.keyword ++ "' on '" ++ path ++ "' has no value"))

namespace Expression

/-- The error of an expression that is too deep to export. -/
def tooDeep : PolicyError := .unsupportedShape "expression nested deeper than 512 levels"

/-- The CEL text of an expression at a depth; `underAnd` says whether it is an
operand of `&&`. Model of `render`. -/
def toCelAt (names : NameMap) (underAnd : Bool) (depth : Nat) (e : Expression) :
    Except PolicyError String :=
  if maxDepth < depth then .error tooDeep
  else
    match e with
    | .compare c => c.toCel names
    | .logical .and left right => do
      let left ← toCelAt names true (depth + 1) left
      let right ← toCelAt names true (depth + 1) right
      return left ++ " && " ++ right
    | .logical .or left right => do
      let left ← toCelAt names false (depth + 1) left
      let right ← toCelAt names false (depth + 1) right
      let text := left ++ " || " ++ right
      return if underAnd then "(" ++ text ++ ")" else text
    | .not (.group inner) => negated inner (toCelAt names false (depth + 1) inner)
    | .not inner => negated inner (toCelAt names false (depth + 1) inner)
    | .group inner => do
      let text ← toCelAt names false (depth + 1) inner
      return "(" ++ text ++ ")"
    | .valuePath path _ =>
      .error (.unsupportedShape ("value path filter on '" ++ path ++ "' has no CEL form"))
where
  /-- The negation of an operand whose own text is given. A relation counts as
  part of the negation and not as a level of its own. -/
  negated (inner : Expression) (text : Except PolicyError String) : Except PolicyError String :=
    match inner with
    | .compare c =>
      if c.operator.isCall then text.map ("!" ++ ·)
      else (c.toCel names).map fun text => "!(" ++ text ++ ")"
    | .logical _ _ _ => text.map fun text => "!(" ++ text ++ ")"
    | _ => text.map ("!" ++ ·)

/-- The CEL text of a filter. Model of `emit`. -/
def toCel (names : NameMap) (e : Expression) : Except PolicyError String :=
  toCelAt names false 1 e

end Expression

end PolicyDialects.Filter
