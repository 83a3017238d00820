import PolicyDialects.Cel.Parser
import PolicyDialects.Filter.Expression
import PolicyDialects.Names

/-!
# CEL as filters

The filter of a CEL condition, its attributes under their IDQL names. Only
comparisons of attribute paths with constants, `has`, `startsWith`, `endsWith`
and `contains`, and their combinations by `&&`, `||` and `!` have one
(specification, section 4.2).

* `Tree.selectPath` — the dotted path of a name or a chain of members.
* `Tree.constantValue` — the value of a literal, a negated number, or a list.
* `Tree.toFilter` — the filter of an expression of depth at most
  `Expression.maxDepth`; an `||` below an `&&` gets parentheses.
-/

namespace PolicyDialects.Cel

open PolicyDialects.Filter (CompareOperator Comparison Expression Value)

/-! ## Constants -/

/-- The error of an expression where a constant is needed. Model of
`malformed`. -/
def malformedConstant (e : Tree) : PolicyError :=
  .unsupportedShape ("expected a constant, found " ++ e.shown)

/-- The value of a literal, negated or not. Negating the least integer leaves it
as it is. Model of `atom_value`. -/
def Constant.value (negative : Bool) (c : Constant) : Except PolicyError Value :=
  match c, negative with
  | .int i, _ => .ok (.integer (if negative then -i else i))
  | .float x, _ => .ok (.float (if negative then -x else x))
  | .string s, false => .ok (.string s)
  | .bool b, false => .ok (.boolean b)
  | c, _ =>
    .error (.unsupportedShape ("constant " ++ c.shown ++ " cannot be used in a condition"))

namespace Tree

mutual

/-- The value of a constant expression. Model of `constant`. -/
def constantValue : Tree → Except PolicyError Value
  | .constant c => c.value false
  | .unary .minus (.constant c) => c.value true
  | .unary .minus e => .error (malformedConstant e)
  | .list items => do
    let values ← constantValues items
    return .list values
  | e => .error (malformedConstant e)

/-- The values of constant expressions, up to the first that is none. -/
def constantValues : List Tree → Except PolicyError (List Value)
  | [] => .ok []
  | e :: es => do
    let value ← constantValue e
    let values ← constantValues es
    return value :: values

end

/-! ## Paths -/

/-- The dotted path of a name or of names selected from it. Model of
`select_path`. -/
def selectPath : Tree → Except PolicyError String
  | .ident name => .ok name
  | .select e name => do
    let path ← selectPath e
    return path ++ "." ++ name
  | .index _ i => notPath ("member access " ++ shownIndex i)
  | .fields _ values => notPath ("member access " ++ shownFieldList values)
  | e => notPath e.shown
where
  /-- The error of something that is no attribute path. -/
  notPath (what : String) : Except PolicyError String :=
    .error (.unsupportedShape (what ++ " is not an attribute path"))

/-- The IDQL name of an attribute path. Model of `Walker.path`. -/
def path (names : NameMap) (e : Tree) : Except PolicyError String := do
  names.resolveIdql (← selectPath e)

/-! ## Comparisons -/

/-- The filter operator of a relation. -/
def relationOperator : Relation → CompareOperator
  | .equals => .eq
  | .notEquals => .ne
  | .less => .lt
  | .lessEquals => .le
  | .greater => .gt
  | .greaterEquals => .ge
  | .in => .in

/-- The filter of a relation. `!a == v` is read as the negation of `a == v`.
Model of `Walker.map_relation`. -/
def relationFilter (names : NameMap) (left : Tree) (op : Relation) (right : Tree) :
    Except PolicyError Expression := do
  let value ← right.constantValue
  match left with
  | .unary .not inner =>
    return .not (.compare (.with (← inner.path names) (relationOperator op) value))
  | left => return .compare (.with (← left.path names) (relationOperator op) value)

/-- The filter operator of a method. -/
def methodOperator? (name : String) : Option CompareOperator :=
  if name = "startsWith" then some .sw
  else if name = "endsWith" then some .ew
  else if name = "contains" then some .co
  else none

/-- The filter of a call. Model of `Walker.map_call`. -/
def callFilter (names : NameMap) (receiver : Option Tree) (name : String) (args : List Tree) :
    Except PolicyError Expression :=
  if name = "has" then
    match receiver, args with
    | none, [arg] => return .compare (.present (← arg.path names))
    | _, _ => throw (.unsupportedShape "has() takes exactly one attribute")
  else
    match methodOperator? name with
    | none => throw (.unsupportedOperator name)
    | some op =>
      match receiver, args with
      | some receiver, [arg] => do
        let path ← receiver.path names
        let value ← arg.constantValue
        return .compare (.with path op value)
      | _, _ => throw (.unsupportedShape (name ++ "() needs a receiver and one argument"))

/-! ## Conditions -/

/-- The filter of an expression at a depth; `underAnd` says whether it is an
operand of `&&`. Model of `Walker.map`. -/
def toFilterAt (names : NameMap) (underAnd : Bool) (depth : Nat) (e : Tree) :
    Except PolicyError Expression :=
  if Expression.maxDepth < depth then
    .error (.unsupportedShape "CEL expression nested deeper than 512 levels")
  else
    match e with
    | .and left right => do
      let left ← toFilterAt names true (depth + 1) left
      let right ← toFilterAt names true (depth + 1) right
      return .and left right
    | .or left right => do
      let left ← toFilterAt names false (depth + 1) left
      let right ← toFilterAt names false (depth + 1) right
      return if underAnd then .group (.or left right) else .or left right
    | .unary .not inner => do
      let inner ← toFilterAt names false (depth + 1) inner
      return .not inner
    | .unary .doubleNot inner => do
      let inner ← toFilterAt names false (depth + 1) inner
      return .not (.not inner)
    | .relation op left right => relationFilter names left op right
    | .call name args => callFilter names none name args
    | .methodCall receiver name args => callFilter names (some receiver) name args
    | e => .error (.unsupportedShape ("CEL expression " ++ e.shown ++ " is not a condition"))

/-- The filter of a CEL expression. Model of `parse_cel` behind the reader. -/
def toFilter (names : NameMap) (e : Tree) : Except PolicyError Expression :=
  toFilterAt names false 1 e

end Tree

end PolicyDialects.Cel
