import PolicyDialects.Binary64.Decimal
import PolicyDialects.Text.Shown

/-!
# CEL expressions

The syntax tree of Google's Common Expression Language, as its reader builds
it. Parentheses leave no node behind.

* `Relation`, `Arithmetic`, `Negation` — operators.
* `Constant` — literals.
* `Tree` — expressions.
* `Tree.shown` — the constructor form in which messages quote an expression.
-/

namespace PolicyDialects.Cel

open Text

/-- Relational operators. -/
inductive Relation where
  | equals | notEquals | less | lessEquals | greater | greaterEquals | in
  deriving DecidableEq, Inhabited

/-- The name of a relational operator in messages. -/
def Relation.shown : Relation → String
  | .equals => "Equals"
  | .notEquals => "NotEquals"
  | .less => "LessThan"
  | .lessEquals => "LessThanEq"
  | .greater => "GreaterThan"
  | .greaterEquals => "GreaterThanEq"
  | .in => "In"

/-- Arithmetic operators. -/
inductive Arithmetic where
  | add | subtract | multiply | divide | modulus
  deriving DecidableEq, Inhabited

/-- The name of an arithmetic operator in messages. -/
def Arithmetic.shown : Arithmetic → String
  | .add => "Add"
  | .subtract => "Subtract"
  | .multiply => "Multiply"
  | .divide => "Divide"
  | .modulus => "Modulus"

/-- Operators before an operand. -/
inductive Negation where
  | not | doubleNot | minus | doubleMinus
  deriving DecidableEq, Inhabited

/-- The name of an operator before an operand in messages. -/
def Negation.shown : Negation → String
  | .not => "Not"
  | .doubleNot => "DoubleNot"
  | .minus => "Minus"
  | .doubleMinus => "DoubleMinus"

/-- The values of literals. -/
inductive Constant where
  | int (i : Int64)
  | float (x : Binary64)
  | string (s : String)
  | bytes (bs : List UInt8)
  | bool (b : Bool)
  | null
  deriving DecidableEq, Inhabited

/-- The constructor form of a literal's value. -/
def Constant.shown : Constant → String
  | .int i => "Int(" ++ String.ofList (intNumeral i.toInt) ++ ")"
  | .float x => "Float(" ++ x.text ++ ")"
  | .string s => "String(" ++ Text.shown s ++ ")"
  | .bytes bs =>
    "Bytes(" ++ bracketed (bs.map fun b => String.ofList (numeral b.toNat)) ++ ")"
  | .bool b => if b then "Bool(true)" else "Bool(false)"
  | .null => "Null"

/-- A CEL expression. -/
inductive Tree where
  | ident (name : String)
  | constant (c : Constant)
  | select (e : Tree) (name : String)
  | index (e i : Tree)
  | fields (e : Tree) (values : List (String × Tree))
  | call (name : String) (args : List Tree)
  | methodCall (receiver : Tree) (name : String) (args : List Tree)
  | unary (op : Negation) (e : Tree)
  | arithmetic (op : Arithmetic) (left right : Tree)
  | relation (op : Relation) (left right : Tree)
  | and (left right : Tree)
  | or (left right : Tree)
  | ternary (condition yes no : Tree)
  | list (items : List Tree)
  | map (entries : List (Tree × Tree))
  deriving Inhabited

namespace Tree

/-! ## Constructor form -/

mutual

/-- The constructor form of an expression. -/
def shown : Tree → String
  | .ident name => "Ident(" ++ Text.shown name ++ ")"
  | .constant c => "Atom(" ++ c.shown ++ ")"
  | .select e name => "Member(" ++ shown e ++ ", Attribute(" ++ Text.shown name ++ "))"
  | .index e i => "Member(" ++ shown e ++ ", Index(" ++ shown i ++ "))"
  | .fields e values =>
    "Member(" ++ shown e ++ ", Fields(" ++ bracketed (shownFields values) ++ "))"
  | .call name args =>
    "FunctionCall(Ident(" ++ Text.shown name ++ "), None, " ++ bracketed (shownItems args) ++ ")"
  | .methodCall receiver name args =>
    "FunctionCall(Ident(" ++ Text.shown name ++ "), Some(" ++ shown receiver ++ "), " ++
      bracketed (shownItems args) ++ ")"
  | .unary op e => "Unary(" ++ op.shown ++ ", " ++ shown e ++ ")"
  | .arithmetic op left right =>
    "Arithmetic(" ++ shown left ++ ", " ++ op.shown ++ ", " ++ shown right ++ ")"
  | .relation op left right =>
    "Relation(" ++ shown left ++ ", " ++ op.shown ++ ", " ++ shown right ++ ")"
  | .and left right => "And(" ++ shown left ++ ", " ++ shown right ++ ")"
  | .or left right => "Or(" ++ shown left ++ ", " ++ shown right ++ ")"
  | .ternary condition yes no =>
    "Ternary(" ++ shown condition ++ ", " ++ shown yes ++ ", " ++ shown no ++ ")"
  | .list items => "List(" ++ bracketed (shownItems items) ++ ")"
  | .map entries => "Map(" ++ bracketed (shownEntries entries) ++ ")"

/-- The constructor forms of expressions. -/
def shownItems : List Tree → List String
  | [] => []
  | e :: es => shown e :: shownItems es

/-- The constructor form of a named field. -/
def shownField : String × Tree → String
  | (name, e) => "(" ++ Text.shown name ++ ", " ++ shown e ++ ")"

/-- The constructor forms of named fields. -/
def shownFields : List (String × Tree) → List String
  | [] => []
  | field :: rest => shownField field :: shownFields rest

/-- The constructor form of a map entry. -/
def shownEntry : Tree × Tree → String
  | (key, value) => "(" ++ shown key ++ ", " ++ shown value ++ ")"

/-- The constructor forms of map entries. -/
def shownEntries : List (Tree × Tree) → List String
  | [] => []
  | entry :: rest => shownEntry entry :: shownEntries rest

end

/-- The constructor form of an index after an expression. -/
def shownIndex (i : Tree) : String := "Index(" ++ shown i ++ ")"

/-- The constructor form of named fields after an expression. -/
def shownFieldList (values : List (String × Tree)) : String :=
  "Fields(" ++ bracketed (shownFields values) ++ ")"

end Tree

end PolicyDialects.Cel
