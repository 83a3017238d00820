import PolicyDialects.Filter.Grammar

/-!
# Reading filters

The expression of a filter text, by the grammar of filters. A term may have at
most `maxNesting - 1` terms around it, and the whole a bounded depth.

* `Fault` — what is wrong with a filter, and `Fault.message`, its wording.
* `chain` — operands joined by one keyword; `term` — terms with a number of
  nesting levels left; `disjunction` — the start symbol.
* `Expression.parse` — a whole text; it also bounds the depth of the result.
-/

namespace PolicyDialects.Filter

open Text

/-! ## Faults -/

/-- What is wrong with a sequence of tokens. -/
inductive Fault where
  | expectedExpression
  | tooDeep
  | missingLeftOperand
  | unclosedParen
  | strayParen
  | unclosedBracket
  | strayBracket
  | unexpectedToken
  | trailingToken
  | missingOperator
  | expectedOperator
  | unknownOperator
  | missingValue
  | expectedItem
  | expectedSeparator
  deriving DecidableEq

/-- The wording of a fault. -/
def Fault.message : Fault → String
  | .expectedExpression => "expected an expression"
  | .tooDeep => "expression nested too deeply"
  | .missingLeftOperand => "logical operator without a left-hand expression"
  | .unclosedParen => "unbalanced '('"
  | .strayParen => "unbalanced ')'"
  | .unclosedBracket => "unbalanced '['"
  | .strayBracket => "unbalanced ']'"
  | .unexpectedToken => "unexpected token"
  | .trailingToken => "unexpected token after expression"
  | .missingOperator => "attribute without a comparison operator"
  | .expectedOperator => "expected a comparison operator"
  | .unknownOperator => "unknown comparison operator"
  | .missingValue => "missing value after operator"
  | .expectedItem => "expected a list item"
  | .expectedSeparator => "expected ',' or ']' in list"

/-- The error of a fault at a token. Model of `PolicyError.parse`. -/
def Fault.at (fault : Fault) (t : Placed) : PolicyError :=
  .parse t.offset t.token.lexeme fault.message

/-- The error of a fault at the end of the text. Model of `Parser.eof_error`. -/
def Fault.atEnd (fault : Fault) (finish : Nat) : PolicyError := .parse finish "" fault.message

/-! ## Values -/

/-- Readers of expressions: the expression, and the tokens after it. -/
abbrev Reader := List Placed → Except PolicyError (Expression × List Placed)

/-- The items of a list after the first one, up to its closing bracket;
`opening` is the opening one. The loop of `Parser.parse_list`. -/
def readItems (opening : Placed) : List Placed → Except PolicyError (List Value × List Placed)
  | [] => .error (Fault.unclosedBracket.at opening)
  | ⟨.rightBracket, _⟩ :: rest => .ok ([], rest)
  | [⟨.comma, _⟩] => .error (Fault.unclosedBracket.at opening)
  | ⟨.comma, _⟩ :: t :: rest =>
    match itemValue? t.token with
    | some v => (readItems opening rest).map fun (vs, r) => (v :: vs, r)
    | none => .error (Fault.expectedItem.at t)
  | t :: _ => .error (Fault.expectedSeparator.at t)

/-- A list after its opening bracket. Model of `Parser.parse_list`. -/
def readList (opening : Placed) : List Placed → Except PolicyError (List Value × List Placed)
  | [] => .error (Fault.unclosedBracket.at opening)
  | ⟨.rightBracket, _⟩ :: rest => .ok ([], rest)
  | t :: rest =>
    match itemValue? t.token with
    | some v => (readItems opening rest).map fun (vs, r) => (v :: vs, r)
    | none => .error (Fault.expectedItem.at t)

/-- The value after an operator; only `in` takes a list. Model of
`Parser.parse_value`. -/
def readValue (operator : CompareOperator) (operatorToken : Placed) :
    List Placed → Except PolicyError (Value × List Placed)
  | [] => .error (Fault.missingValue.at operatorToken)
  | ⟨.literal s, _⟩ :: rest => .ok (.string s, rest)
  | ⟨.word w, offset⟩ :: rest =>
    if isReserved w then
      .error (Fault.missingValue.at ⟨.word w, offset⟩)
    else .ok (.ofWord w, rest)
  | ⟨.leftBracket, offset⟩ :: rest =>
    if operator = .in then
      (readList ⟨.leftBracket, offset⟩ rest).map fun (vs, r) => (.list vs, r)
    else .error (Fault.missingValue.at ⟨.leftBracket, offset⟩)
  | t :: _ => .error (Fault.missingValue.at t)

/-! ## Expressions -/

/-- The tokens after a closing bracket that must come next; the opening one is
blamed when the text ends before it. Model of `Parser.expect_close`. -/
def readClose (close : Token) (fault : Fault) (opening : Placed) :
    List Placed → Except PolicyError (List Placed)
  | [] => .error (fault.at opening)
  | t :: rest => if t.token = close then .ok rest else .error (fault.at t)

/-- The operands after the first one, each with its operator before it, nested
to the left. The loop of `Parser.parse_and` and of `Parser.parse_or`. -/
def chainFrom (op : LogicalOperator) (operand : Reader)
    (left : Expression) : List Placed → Except PolicyError (Expression × List Placed)
  | [] => .ok (left, [])
  | t :: rest =>
    if t.token.isKeyword op.keyword then
      match operand rest with
      | .error e => .error e
      | .ok (right, after) =>
        if after.length < rest.length then
          chainFrom op operand (.logical op left right) after
        else .ok (.logical op left right, after)
    else .ok (left, t :: rest)
termination_by tokens => tokens.length

/-- One or more operands joined by an operator, nested to the left. Model of
`Parser.parse_and` over terms. -/
def chain (op : LogicalOperator) (operand : Reader)
    (tokens : List Placed) : Except PolicyError (Expression × List Placed) :=
  match operand tokens with
  | .error e => .error e
  | .ok (left, rest) => chainFrom op operand left rest

/-- Conjunctions of terms joined by `or`. Model of `Parser.parse_or`. -/
def disjunction (term : Reader) : Reader :=
  chain .or (chain .and term)

/-- A comparison or value path after its path `path` at `offset`. Model of
`Parser.parse_attribute`. -/
def readAttribute (inner : Reader) (path : String) (offset : Nat) :
    List Placed → Except PolicyError (Expression × List Placed)
  | [] => .error (Fault.missingOperator.at ⟨.word path, offset⟩)
  | ⟨.leftBracket, o⟩ :: rest => do
    let (filter, rest) ← inner rest
    let rest ← readClose .rightBracket .unclosedBracket ⟨.leftBracket, o⟩ rest
    return (.valuePath path filter, rest)
  | ⟨.word w, o⟩ :: rest =>
    match CompareOperator.ofKeyword? w with
    | none => .error (Fault.unknownOperator.at ⟨.word w, o⟩)
    | some .pr => .ok (.compare (.present path), rest)
    | some op => do
      let (value, rest) ← readValue op ⟨.word w, o⟩ rest
      return (.compare (.with path op value), rest)
  | t :: _ => .error (Fault.expectedOperator.at t)

/-- The number of terms that may be open at once: parentheses, `not` and value
paths open one each. The constant `MAX_NESTING`. -/
def maxNesting : Nat := 128

/-- A term with the given number of nesting levels left; `finish` is the length
of the text. Model of `Parser.parse_term` and `Parser.parse_nested_term`. -/
def term (finish : Nat) :
    (levels : Nat) → List Placed → Except PolicyError (Expression × List Placed)
  | 0, [] => .error (Fault.tooDeep.atEnd finish)
  | 0, t :: _ => .error (Fault.tooDeep.at t)
  | _ + 1, [] => .error (Fault.expectedExpression.atEnd finish)
  | n + 1, ⟨.word w, offset⟩ :: rest =>
    if sameFold w "not" then do
      let (inner, rest) ← term finish n rest
      return (.not inner, rest)
    else if isLogicalKeyword w then .error (Fault.missingLeftOperand.at ⟨.word w, offset⟩)
    else readAttribute (disjunction (term finish n)) w offset rest
  | n + 1, ⟨.leftParen, offset⟩ :: rest => do
    let (inner, rest) ← disjunction (term finish n) rest
    let rest ← readClose .rightParen .unclosedParen ⟨.leftParen, offset⟩ rest
    return (.group inner, rest)
  | _ + 1, ⟨.rightParen, offset⟩ :: _ => .error (Fault.strayParen.at ⟨.rightParen, offset⟩)
  | _ + 1, ⟨.rightBracket, offset⟩ :: _ =>
    .error (Fault.strayBracket.at ⟨.rightBracket, offset⟩)
  | _ + 1, t :: _ => .error (Fault.unexpectedToken.at t)

/-- What is wrong with a token after the end of an expression. -/
def trailingFault : Token → Fault
  | .rightParen => .strayParen
  | .rightBracket => .strayBracket
  | _ => .trailingToken

/-- The expression that a whole sequence of tokens spells. The rest of
`parse`. -/
def parseTokens (finish : Nat) (tokens : List Placed) : Except PolicyError Expression :=
  match disjunction (term finish maxNesting) tokens with
  | .error e => .error e
  | .ok (_, t :: _) => .error ((trailingFault t.token).at t)
  | .ok (e, []) =>
    if e.deepestLevel ≤ Expression.maxDepth then .ok e else .error (Fault.tooDeep.atEnd 0)

/-- The expression that a filter text spells. Model of `parse`. -/
def Expression.parse (text : String) : Except PolicyError Expression := do
  parseTokens (byteLength text.toList) (← tokenize text)

end PolicyDialects.Filter
