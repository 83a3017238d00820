import PolicyDialects.Cel.Literal
import PolicyDialects.Error

/-!
# Reading CEL

The grammar of `cel-parser`, version 0.7:

    expr    := or "?" or ":" expr | or
    or      := and ("||" and)*
    and     := rel ("&&" rel)*
    rel     := add (relation add)?
    add     := mul (("+" | "-") mul)*
    mul     := unary (("*" | "/" | "%") unary)*
    unary   := ("!" | "!!" | "-" | "--")? member
    member  := primary ("." name | "." name "(" args ")" | "[" expr "]" | "{" fields "}")*
    primary := "."? name | "."? name "(" args ")" | literal
             | "[" args "]" | "{" entries "}" | "(" expr ")"

A list between brackets may end with one comma. Each level is a function of
the reader `inner` for expressions between brackets.

* `Fault` — the first token that continues no valid text, the end of the text,
  a character that starts no token, or a literal without a value. A literal is
  evaluated when the token after it is one that may follow an operand.
* `Tree.parse` — a whole text. The number of its tokens bounds its brackets.
-/

namespace PolicyDialects.Cel

open Text

/-! ## Faults -/

/-- Why a text is not a CEL expression. -/
inductive Fault where
  | unexpected (found : Lexeme)
  | unexpectedEnd (finish : Nat)
  | invalidToken (offset : Nat)
  | noValue
  deriving DecidableEq

/-- The wording of a fault. -/
def Fault.message : Fault → String
  | .unexpected t =>
    "Unrecognized token `" ++ String.ofList t.text ++ "` found at " ++
      String.ofList (numeral t.start) ++ ":" ++ String.ofList (numeral t.finish)
  | .unexpectedEnd finish => "Unrecognized EOF found at " ++ String.ofList (numeral finish)
  | .invalidToken offset => "Invalid token at " ++ String.ofList (numeral offset)
  | .noValue => "literal without a value"

/-- The error of a fault in a text, all of which is blamed. -/
def Fault.toError (text : String) : Fault → PolicyError
  | .noValue => .literalWithoutValue
  | fault => .parse 0 text ("invalid CEL: " ++ fault.message)

/-- The fault of a text that stops where a token is needed. -/
def Ending.fault : Ending → Fault
  | .complete finish => .unexpectedEnd finish
  | .invalid offset => .invalidToken offset

/-- Readers of expressions: the expression, and the lexemes after it. -/
abbrev Reader := List Lexeme → Except Fault (Tree × List Lexeme)

/-- The fault at the next lexeme. -/
def faultAt (ending : Ending) : List Lexeme → Fault
  | [] => ending.fault
  | t :: _ => .unexpected t

/-- The lexemes after a symbol that must come next. -/
def expect (ending : Ending) (s : Symbol) : List Lexeme → Except Fault (List Lexeme)
  | [] => .error ending.fault
  | t :: rest => if t.token = .symbol s then .ok rest else .error (.unexpected t)

/-- The name that must come next, and the lexemes after it. -/
def expectName (ending : Ending) : List Lexeme → Except Fault (String × List Lexeme)
  | [] => .error ending.fault
  | t :: rest =>
    if t.token = .ident then .ok (String.ofList t.text, rest) else .error (.unexpected t)

/-! ## Lists between brackets -/

/-- Items separated by commas up to a closing bracket, which a comma may
precede. -/
def items {α : Type} (ending : Ending) (close : Symbol)
    (item : List Lexeme → Except Fault (α × List Lexeme)) (ts : List Lexeme) :
    Except Fault (List α × List Lexeme) :=
  match expect ending close ts with
  | .ok rest => .ok ([], rest)
  | .error _ =>
    match item ts with
    | .error fault => .error fault
    | .ok (x, after) =>
      match expect ending .comma after with
      | .ok rest =>
        if rest.length < ts.length then
          (items ending close item rest).map fun (xs, r) => (x :: xs, r)
        else .error (faultAt ending rest)
      | .error _ => (expect ending close after).map fun rest => ([x], rest)
termination_by ts.length

/-- A name, a colon and an expression. -/
def field (ending : Ending) (inner : Reader) (ts : List Lexeme) :
    Except Fault ((String × Tree) × List Lexeme) := do
  let (name, ts) ← expectName ending ts
  let ts ← expect ending .colon ts
  let (e, ts) ← inner ts
  return ((name, e), ts)

/-- Two expressions with a colon between them. -/
def entry (ending : Ending) (inner : Reader) (ts : List Lexeme) :
    Except Fault ((Tree × Tree) × List Lexeme) := do
  let (key, ts) ← inner ts
  let ts ← expect ending .colon ts
  let (value, ts) ← inner ts
  return ((key, value), ts)

/-! ## Operands -/

/-- The value of a literal. The next token comes first: one that never follows
an operand is the fault, and so is a character that starts no token. -/
def literal (ending : Ending) (kind : LiteralKind) (text : List Char) :
    List Lexeme → Except Fault Tree
  | [] =>
    match ending with
    | .invalid offset => .error (.invalidToken offset)
    | .complete _ => value
  | t :: _ =>
    match t.token with
    | .symbol s => if s.followsOperand then value else .error (.unexpected t)
    | _ => .error (.unexpected t)
where
  /-- The value of the literal. -/
  value : Except Fault Tree :=
    match literalValue? kind text with
    | some c => .ok (.constant c)
    | none => .error .noValue

/-- A name, or a call of it. -/
def named (ending : Ending) (inner : Reader) (name : String) : Reader
  | t :: rest =>
    if t.token = .symbol .leftParen then do
      let (args, rest) ← items ending .rightParen inner rest
      return (.call name args, rest)
    else .ok (.ident name, t :: rest)
  | [] => .ok (.ident name, [])

/-- An operand without the members after it. -/
def primary (ending : Ending) (inner : Reader) : Reader
  | [] => .error ending.fault
  | t :: rest =>
    match t.token with
    | .ident => named ending inner (String.ofList t.text) rest
    | .literal kind => (literal ending kind t.text rest).map fun e => (e, rest)
    | .symbol .dot => do
      let (name, rest) ← expectName ending rest
      named ending inner name rest
    | .symbol .true => .ok (.constant (.bool true), rest)
    | .symbol .false => .ok (.constant (.bool false), rest)
    | .symbol .null => .ok (.constant .null, rest)
    | .symbol .leftBracket => do
      let (es, rest) ← items ending .rightBracket inner rest
      return (.list es, rest)
    | .symbol .leftBrace => do
      let (es, rest) ← items ending .rightBrace (entry ending inner) rest
      return (.map es, rest)
    | .symbol .leftParen => do
      let (e, rest) ← inner rest
      let rest ← expect ending .rightParen rest
      return (e, rest)
    | _ => .error (.unexpected t)

/-- One member after an expression, when there is one. -/
def suffix (ending : Ending) (inner : Reader) (e : Tree) :
    List Lexeme → Except Fault (Option (Tree × List Lexeme))
  | [] => .ok none
  | t :: rest =>
    match t.token with
    | .symbol .dot => do
      let (name, rest) ← expectName ending rest
      match rest with
      | p :: rest =>
        if p.token = .symbol .leftParen then do
          let (args, rest) ← items ending .rightParen inner rest
          return some (.methodCall e name args, rest)
        else return some (.select e name, p :: rest)
      | [] => return some (.select e name, [])
    | .symbol .leftBracket => do
      let (i, rest) ← inner rest
      let rest ← expect ending .rightBracket rest
      return some (.index e i, rest)
    | .symbol .leftBrace => do
      let (values, rest) ← items ending .rightBrace (field ending inner) rest
      return some (.fields e values, rest)
    | _ => .ok none

/-- The members after an expression. -/
def members (ending : Ending) (inner : Reader) (e : Tree) (ts : List Lexeme) :
    Except Fault (Tree × List Lexeme) :=
  match suffix ending inner e ts with
  | .error fault => .error fault
  | .ok none => .ok (e, ts)
  | .ok (some (e', rest)) =>
    if rest.length < ts.length then members ending inner e' rest else .ok (e', rest)
termination_by ts.length

/-- An operand with its members. -/
def member (ending : Ending) (inner : Reader) : Reader := fun ts => do
  let (e, rest) ← primary ending inner ts
  members ending inner e rest

/-- The operator of a symbol before an operand. -/
def negation? : Token → Option Negation
  | .symbol .bang => some .not
  | .symbol .bangBang => some .doubleNot
  | .symbol .minus => some .minus
  | .symbol .minusMinus => some .doubleMinus
  | _ => none

/-- A member with at most one operator before it. -/
def unary (ending : Ending) (inner : Reader) : Reader
  | [] => .error ending.fault
  | t :: rest =>
    match negation? t.token with
    | some op => (member ending inner rest).map fun (e, r) => (.unary op e, r)
    | none => member ending inner (t :: rest)

/-! ## Operators -/

/-- The constructor of a binary operator, when the token is one of a level. -/
abbrev Level := Token → Option (Tree → Tree → Tree)

/-- The operators that multiply. -/
def Level.mul : Level
  | .symbol .star => some (.arithmetic .multiply)
  | .symbol .slash => some (.arithmetic .divide)
  | .symbol .percent => some (.arithmetic .modulus)
  | _ => none

/-- The operators that add. -/
def Level.add : Level
  | .symbol .plus => some (.arithmetic .add)
  | .symbol .minus => some (.arithmetic .subtract)
  | _ => none

/-- The relations. -/
def Level.rel : Level
  | .symbol .equalsEquals => some (.relation .equals)
  | .symbol .bangEquals => some (.relation .notEquals)
  | .symbol .less => some (.relation .less)
  | .symbol .lessEquals => some (.relation .lessEquals)
  | .symbol .greater => some (.relation .greater)
  | .symbol .greaterEquals => some (.relation .greaterEquals)
  | .symbol .in => some (.relation .in)
  | _ => none

/-- Conjunction. -/
def Level.and : Level
  | .symbol .andAnd => some .and
  | _ => none

/-- Disjunction. -/
def Level.or : Level
  | .symbol .orOr => some .or
  | _ => none

/-- The operands after the first one, each with its operator before it, nested
to the left. -/
def chainFrom (level : Level) (operand : Reader) (left : Tree) :
    List Lexeme → Except Fault (Tree × List Lexeme)
  | [] => .ok (left, [])
  | t :: rest =>
    match level t.token with
    | none => .ok (left, t :: rest)
    | some join =>
      match operand rest with
      | .error fault => .error fault
      | .ok (right, after) =>
        if after.length < rest.length then chainFrom level operand (join left right) after
        else .ok (join left right, after)
termination_by ts => ts.length

/-- One or more operands joined by the operators of a level. -/
def chain (level : Level) (operand : Reader) : Reader := fun ts =>
  match operand ts with
  | .error fault => .error fault
  | .ok (left, rest) => chainFrom level operand left rest

/-- Sums. -/
def sum (ending : Ending) (inner : Reader) : Reader :=
  chain .add (chain .mul (unary ending inner))

/-- A sum, or two of them with a relation between. -/
def comparison (ending : Ending) (inner : Reader) : Reader := fun ts => do
  let (left, rest) ← sum ending inner ts
  match rest with
  | [] => return (left, [])
  | t :: rest =>
    match Level.rel t.token with
    | none => return (left, t :: rest)
    | some join => do
      let (right, rest) ← sum ending inner rest
      return (join left right, rest)

/-- Disjunctions. -/
def disjunction (ending : Ending) (inner : Reader) : Reader :=
  chain .or (chain .and (comparison ending inner))

/-- A disjunction, or a choice between two expressions. -/
def choice (ending : Ending) (inner : Reader) : Reader := fun ts => do
  let (condition, rest) ← disjunction ending inner ts
  match rest with
  | [] => return (condition, [])
  | t :: rest =>
    if t.token = .symbol .question then do
      let (yes, rest) ← disjunction ending inner rest
      let rest ← expect ending .colon rest
      let (no, rest) ← inner rest
      return (.ternary condition yes no, rest)
    else return (condition, t :: rest)

/-! ## Texts -/

/-- An expression with at most `levels` expressions around its innermost part. -/
def expr (ending : Ending) : (levels : Nat) → Reader
  | 0, ts => .error (faultAt ending ts)
  | n + 1, ts => choice ending (expr ending n) ts

/-- The expression that a whole sequence of lexemes spells. -/
def parseLexemes (ts : List Lexeme) (ending : Ending) : Except Fault Tree :=
  match expr ending (ts.length + 1) ts with
  | .error fault => .error fault
  | .ok (_, t :: _) => .error (.unexpected t)
  | .ok (e, []) =>
    match ending with
    | .complete _ => .ok e
    | .invalid offset => .error (.invalidToken offset)

/-- The expression that a CEL text spells. -/
def Tree.parse (text : String) : Except PolicyError Tree :=
  let (ts, ending) := lexemes text.toList
  match parseLexemes ts ending with
  | .ok e => .ok e
  | .error fault => .error (fault.toError text)

end PolicyDialects.Cel
